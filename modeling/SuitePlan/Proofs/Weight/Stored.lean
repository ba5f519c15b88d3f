import SuitePlan.Proofs.Json.Whole
import SuitePlan.Proofs.Weight.Matching
import SuitePlan.Proofs.Weight.Shares

/-! What an update of a weight file returns, against what it stores. A weight that is too large for a
double is stored as null and lost, and other doubles are read from their text. So the file holds the
table that was returned only where all weights are finite and all doubles come back. -/

namespace SuitePlan

namespace Weights

open Binary64 (isFinite magnitude infinity value quotient product Unsigned)

section Share

variable {total budget time : Float}

theorem share_eq_floor_mul (h : 0 < total) :
    share total budget time = Binary64.floor (time / total * budget) := if_pos h

theorem isFinite_share_iff (htime : isFinite time) (hbudget : isFinite budget) :
    isFinite (share total budget time) = true ↔
      (0 < total → quotient (magnitude time) (magnitude total) < infinity ∧
        product (quotient (magnitude time) (magnitude total)) (magnitude budget) < infinity) := by
  have ht : magnitude time < infinity := of_decide_eq_true htime
  have hb : magnitude budget < infinity := of_decide_eq_true hbudget
  by_cases hpos : 0 < total
  · obtain ⟨hzero, hle⟩ := Binary64.magnitude_of_pos hpos
    rw [share_eq_floor_mul hpos, Binary64.isFinite_floor, isFinite, decide_eq_true_iff,
      imp_iff_right hpos]
    rcases hle.lt_or_eq with hlt | hinf
    · have hq := Binary64.magnitude_div ht hlt hzero
      by_cases hfinite : quotient (magnitude time) (magnitude total) < infinity
      · rw [Binary64.magnitude_mul (hq ▸ hfinite) hb, hq, and_iff_right hfinite]
      · have hlarge := Binary64.infinity_le_magnitude_mul (hq ▸ not_lt.mp hfinite) budget
        exact iff_of_false (not_lt.mpr hlarge) fun h => hfinite h.1
    · -- nothing is left of the time, and the quotient is not above one
      have hq := Binary64.magnitude_div_infinity ht hinf
      have hsmall := Binary64.product_quotient_lt (hinf ▸ ht.le) hzero hb
      refine iff_of_true ?_ hsmall
      rw [Binary64.magnitude_mul (hq.symm ▸ by decide) hb, hq, Binary64.product_zero]
      decide
  · have hshare : share total budget time = 0 := if_neg hpos
    rw [hshare]
    exact iff_of_true (by decide) fun h => (hpos h).elim

theorem isFinite_share_of_le (htime : isFinite time) (hbudget : isFinite budget)
    (hle : magnitude time ≤ magnitude total) : isFinite (share total budget time) = true := by
  apply (isFinite_share_iff htime hbudget).mpr
  intro hpos
  exact Binary64.product_quotient_lt hle (Binary64.magnitude_of_pos hpos).1
    (of_decide_eq_true hbudget)

/-- Shares are whole, so small ones come back from a file. -/
theorem reread_share (h : isFinite (share total budget time))
    (hsmall : 10 * value (magnitude (share total budget time)) < 2 ^ 53) :
    Binary64.reread (share total budget time) = share total budget time := by
  have hfinite : magnitude (share total budget time) < infinity := of_decide_eq_true h
  have hnat : ∃ n : Nat, value (magnitude (share total budget time)) = n := by
    by_cases hpos : 0 < total
    · rw [share_eq_floor_mul hpos, Binary64.isFinite_floor] at h
      rw [share_eq_floor_mul hpos]
      exact (Binary64.exists_nat_floor (of_decide_eq_true h)).2
    · have hshare : share total budget time = 0 := if_neg hpos
      have hzero : magnitude 0 = 0 := by decide
      refine ⟨0, ?_⟩
      rw [hshare, hzero, Binary64.value_zero, Nat.cast_zero]
  obtain ⟨n, hn⟩ := hnat
  rw [hn] at hsmall
  exact Binary64.reread_of_value hfinite hn (by exact_mod_cast hsmall)

end Share

section Total

theorem le_foldl_add {s : Float} (hs : Unsigned s) (xs : List Float) (hxs : ∀ x ∈ xs, 0.0 ≤ x) :
    magnitude s ≤ magnitude (xs.foldl (· + ·) s) ∧
      ∀ x ∈ xs, magnitude x ≤ magnitude (xs.foldl (· + ·) s) := by
  induction xs generalizing s with
  | nil => exact ⟨le_rfl, List.forall_mem_nil _⟩
  | cons x xs ih =>
    obtain ⟨hx, hxs⟩ := List.forall_mem_cons.mp hxs
    obtain ⟨hstart, hrest⟩ := ih (hs.add hx).1 hxs
    refine ⟨(hs.magnitude_le_add hx).trans hstart, List.forall_mem_cons.mpr ⟨?_, hrest⟩⟩
    exact (hs.magnitude_le_add_right hx).trans hstart

theorem le_totalTime {t : Weights Float} (h : ∀ x ∈ t.times, 0 ≤ x) :
    ∀ x ∈ t.times, magnitude x ≤ magnitude t.totalTime :=
  (le_foldl_add .zero t.times h).2

end Total

section Restored

theorem restored_eq_some_iff {x : Float} :
    Binary64.restored x = some x ↔ isFinite x = true ∧ Binary64.reread x = x := by
  rw [Binary64.restored]
  by_cases h : isFinite x = true
  · rw [if_pos h, Option.some_inj, and_iff_right h]
  · rw [if_neg h]
    exact iff_of_false (Option.some_ne_none x).symm fun hx => h hx.1

theorem restored_eq_self_iff {t : Weights Float} :
    t.restored = t ↔ ∀ x ∈ t.doubles, isFinite x = true ∧ Binary64.reread x = x := by
  have hentry : ∀ e : Weighing Float, e.restored = e ↔
      ∀ x ∈ e.doubles, isFinite x = true ∧ Binary64.reread x = x := by
    rintro ⟨time, weight⟩
    cases time <;> cases weight <;>
      simp [Weighing.restored, Weighing.doubles, restored_eq_some_iff]
  rw [restored, map_entries_eq_self_iff, forall_mem_doubles]
  exact forall₂_congr fun p _ => hentry p.2

variable {t : Weights Float} {key : String}

theorem mem_times_of_timeOf? {time : Float} (hn : t.keys.Nodup) (h : t.timeOf? key = some time) :
    time ∈ t.times := by
  obtain ⟨e, he, htime⟩ := Option.bind_eq_some_iff.mp h
  exact List.mem_filterMap.mpr ⟨(key, e), (get?_eq_some_iff hn key e).mp he, htime⟩

theorem mem_doubles_of_get? {e : Weighing Float} {x : Float} (hn : t.keys.Nodup)
    (h : t.get? key = some e) (hx : x ∈ e.doubles) : x ∈ t.doubles :=
  List.mem_flatMap.mpr ⟨(key, e), (get?_eq_some_iff hn key e).mp h, hx⟩

theorem exists_of_mem_doubles {x : Float} (hn : t.keys.Nodup) (h : x ∈ t.doubles) :
    ∃ key e, t.get? key = some e ∧ x ∈ e.doubles := by
  obtain ⟨⟨key, e⟩, he, hx⟩ := List.mem_flatMap.mp h
  exact ⟨key, e, (get?_eq_some_iff hn key e).mpr he, hx⟩

end Restored

/-- The weights that follow from the times are all finite. -/
def FiniteShares (timings : Weights Float) (total budget : Float) : Prop :=
  ∀ key time, timings.timeOf? key = some time → isFinite (share total budget time) = true

/-- What is read where the result of an update was written. -/
structure Stored (timings merged stored : Weights Float) (total budget : Float) : Prop where
  keys_eq : stored.keys = merged.keys
  untimed : ∀ key, timings.timeOf? key = none →
    stored.get? key = (merged.get? key).map Weighing.reread
  timed : ∀ key time, timings.timeOf? key = some time →
    merged.get? key = some ⟨some time, some (share total budget time)⟩ ∧
      stored.get? key =
        some ⟨some (Binary64.reread time), Binary64.restored (share total budget time)⟩
  present_iff : (∀ key time, timings.timeOf? key = some time →
    ∃ e, stored.get? key = some e ∧ e.weight.isSome) ↔ FiniteShares timings total budget
  eq_iff : stored = merged ↔
    FiniteShares timings total budget ∧ ∀ x ∈ merged.doubles, Binary64.reread x = x

namespace Updated

variable {existing timings merged : Weights Float} {total budget : Float}

theorem get?_restored_of_timed (h : Updated existing timings merged total budget)
    (ht : timings.keys.Nodup) (htimes : ∀ x ∈ timings.times, isFinite x = true) {key : String}
    {time : Float} (htime : timings.timeOf? key = some time) :
    merged.restored.get? key =
      some ⟨some (Binary64.reread time), Binary64.restored (share total budget time)⟩ := by
  have hfinite := htimes time (mem_times_of_timeOf? ht htime)
  rw [get?_restored, h.timed key time htime]
  show some (⟨Binary64.restored time, Binary64.restored (share total budget time)⟩ :
    Weighing Float) = _
  rw [Binary64.restored_of_finite (of_decide_eq_true hfinite)]

/-- The doubles of a result that nothing measured were read before, so they are finite. -/
theorem isFinite_doubles_iff (h : Updated existing timings merged total budget)
    (he : existing.Writable) (ht : timings.keys.Nodup)
    (htimes : ∀ x ∈ timings.times, isFinite x = true) :
    (∀ x ∈ merged.doubles, isFinite x = true) ↔ FiniteShares timings total budget := by
  have hn := h.nodup he.nodup ht
  constructor
  · intro hall key time htime
    have hmem : share total budget time ∈ merged.doubles :=
      mem_doubles_of_get? hn (h.timed key time htime) (by simp [Weighing.doubles])
    exact hall _ hmem
  · intro hshares x hx
    obtain ⟨key, e, hget, hx⟩ := exists_of_mem_doubles hn hx
    cases htime : timings.timeOf? key with
    | none =>
      rw [h.untimed key htime] at hget
      exact decide_eq_true (he.finite x (mem_doubles_of_get? he.nodup hget hx))
    | some time =>
      rw [h.timed key time htime] at hget
      cases hget
      simp only [Weighing.doubles, Option.toList_some, List.singleton_append, List.mem_cons,
        List.not_mem_nil, or_false] at hx
      rcases hx with rfl | rfl
      · exact htimes x (mem_times_of_timeOf? ht htime)
      · exact hshares key time htime

theorem stored (h : Updated existing timings merged total budget) (he : existing.Writable)
    (ht : timings.keys.Nodup) (htimes : ∀ x ∈ timings.times, isFinite x = true) :
    Stored timings merged merged.restored total budget := by
  refine ⟨keys_restored merged, ?_, fun key time htime => ⟨h.timed key time htime,
    h.get?_restored_of_timed ht htimes htime⟩, ?_, ?_⟩
  · intro key hnone
    rw [get?_restored, h.untimed key hnone]
    cases hold : existing.get? key with
    | none => rfl
    | some e =>
      have hfinite : ∀ x ∈ e.doubles, magnitude x < infinity := fun x hx =>
        he.finite x (mem_doubles_of_get? he.nodup hold hx)
      rw [Option.map_some, Option.map_some, Weighing.restored_eq_reread hfinite]
  · refine forall_congr' fun key => forall_congr' fun time => imp_congr_right fun htime => ?_
    rw [h.get?_restored_of_timed ht htimes htime]
    by_cases hf : isFinite (share total budget time) = true
    · simp [Binary64.restored, hf]
    · simp [Binary64.restored, hf]
  · rw [restored_eq_self_iff, forall₂_and, h.isFinite_doubles_iff he ht htimes]

end Updated

section Run

variable {t u : FileTree} {path : String} {timings merged : Weights Float}
  {total : Option Float} {budget : Float}

theorem run_ofPath (t : FileTree) (path : String) :
    (ofPath path : StateM FileTree _).run t = (ofContent (t.read path), t) := rfl

theorem exists_run_ofPathOrEmpty (t : FileTree) (path : String) :
    ∃ existing : Weights Float, (ofPathOrEmpty path : StateM FileTree _).run t = (existing, t) ∧
      existing.Writable := by
  have hempty : Writable {} := ⟨List.nodup_nil, List.forall_mem_nil _⟩
  rw [ofPathOrEmpty, Storage.run_bind, run_ofPath]
  cases hread : t.read path with
  | error e => exact ⟨{}, rfl, hempty⟩
  | ok s =>
    cases hs : ofText? s with
    | none =>
      refine ⟨{}, ?_, hempty⟩
      simp only [ofContent, hs]
      rfl
    | some existing =>
      refine ⟨existing, ?_, writable_of_ofText? hs⟩
      simp only [ofContent, hs]
      rfl

theorem run_ofPath_of_save (hn : merged.keys.Nodup)
    (h : (Storage.save path (merged.toJson.textIn .pretty) : StateM FileTree _).run t = (.ok (), u)) :
    (ofPath path : StateM FileTree _).run u = (.ok merged.restored, u) := by
  rw [run_ofPath, Storage.read_of_save h, ofContent, ofText?_restored hn .pretty]

end Run

/-- After a successful update the file can be read and holds the keys of the table that was returned.
Its doubles are read from their text, and a weight that is not finite is lost. A weight gets lost only
if the quotient or the product for it is too large, so never if its time is not above the total in
magnitude or if times that are not negative are added up to the total; and small weights come back. -/
theorem updateAt_stored {h : List (String × Weighing Float)} {timings merged : Weights Float}
    {t u : FileTree} {path : String} {total : Option Float} {budget : Float}
    (htimings : Built h timings) (htimes : ∀ x ∈ timings.times, isFinite x = true)
    (hbudget : isFinite budget = true)
    (hrun : (updateAt path timings total budget : StateM FileTree _).run t = (.ok merged, u)) :
    let duration := total.getD timings.totalTime
    ∃ stored, (ofPath path : StateM FileTree _).run u = (.ok stored, u) ∧
      Stored timings merged stored duration budget ∧
      (∀ x ∈ timings.times,
        (isFinite (share duration budget x) = true ↔
          (0 < duration → quotient (magnitude x) (magnitude duration) < infinity ∧
            product (quotient (magnitude x) (magnitude duration)) (magnitude budget) < infinity)) ∧
        (magnitude x ≤ magnitude duration → isFinite (share duration budget x) = true) ∧
        (isFinite (share duration budget x) = true →
          10 * value (magnitude (share duration budget x)) < 2 ^ 53 →
            Binary64.reread (share duration budget x) = share duration budget x)) ∧
      (total = none → (∀ x ∈ timings.times, 0 ≤ x) → FiniteShares timings duration budget) := by
  intro duration
  have ht := htimings.keeps.nodup
  obtain ⟨existing, hold, hw⟩ := exists_run_ofPathOrEmpty t path
  obtain ⟨rfl, hsave⟩ := (run_updateAt_iff hold).mp hrun
  have hupdated := updated_update hw.nodup ht total budget
  refine ⟨_, run_ofPath_of_save (hupdated.nodup hw.nodup ht) hsave, hupdated.stored hw ht htimes,
    ?_, ?_⟩
  · intro x hx
    have hfinite := htimes x hx
    exact ⟨isFinite_share_iff hfinite hbudget, isFinite_share_of_le hfinite hbudget, reread_share⟩
  · rintro rfl hpos key time htime
    have hmem := mem_times_of_timeOf? ht htime
    exact isFinite_share_of_le (htimes time hmem) hbudget (le_totalTime hpos time hmem)

theorem updateAt_stored_over_garbage :
    let t : FileTree := ⟨[(["w.json"], .file (some "garbage"))]⟩
    let h : List (String × Weighing Float) :=
      [("b", ⟨some 100, none⟩), ("old", {}), ("a", ⟨some 300, none⟩)]
    let merged : Weights Float := ⟨[("b", ⟨some 100, some 25⟩), ("a", ⟨some 300, some 75⟩)]⟩
    Built h ⟨h⟩ ∧ (∀ x ∈ times ⟨h⟩, isFinite x = true) ∧ isFinite 100 = true ∧
      ∃ u, (updateAt "w.json" ⟨h⟩ none 100 : StateM FileTree _).run t = (.ok merged, u) ∧
        (ofPath "w.json" : StateM FileTree _).run u = (.ok merged, u) := by
  intro t h merged
  have htimings : Built h ⟨h⟩ := .insert _ _ (.insert _ _ (.insert _ _ .empty))
  have htimes : ∀ x ∈ times ⟨h⟩, isFinite x = true := by decide +kernel
  have hbudget : isFinite 100 = true := by decide
  have hold : (ofPathOrEmpty "w.json" : StateM FileTree _).run t = ({}, t) := by
    change @Eq (Weights Float × FileTree) _ _
    decide +kernel
  have hlocate : t.locate "w.json" = .ok ["w.json"] := by decide +kernel
  have hsave := Storage.save_of_locate (by decide) (by decide) hlocate (by decide)
    (merged.toJson.textIn .pretty)
  have hupdate : merged = update {} ⟨h⟩ none 100 := by decide +kernel
  have hrun := (run_updateAt_iff hold).mpr ⟨hupdate, hsave⟩
  obtain ⟨stored, hread, hstored, -, hnone⟩ := updateAt_stored htimings htimes hbudget hrun
  have hshares := hnone rfl (by decide +kernel)
  have hsame : stored = merged := hstored.eq_iff.mpr ⟨hshares, by decide +kernel⟩
  rw [hsame] at hread
  exact ⟨htimings, htimes, hbudget, _, hrun, hread⟩

theorem run_updateAt_single {time weight budget : Float} {total weight' : Option Float}
    (hupdate : (⟨[("a", ⟨some time, some weight⟩)]⟩ : Weights Float) =
      update {} ⟨[("a", ⟨some time, none⟩)]⟩ total budget)
    (htime : Binary64.restored time = some time) (hweight : Binary64.restored weight = weight') :
    ∃ u, (updateAt "w.json" ⟨[("a", ⟨some time, none⟩)]⟩ total budget : StateM FileTree _).run ⟨[]⟩ =
        (.ok ⟨[("a", ⟨some time, some weight⟩)]⟩, u) ∧
      (ofPath "w.json" : StateM FileTree _).run u = (.ok ⟨[("a", ⟨some time, weight'⟩)]⟩, u) := by
  obtain ⟨merged, hmerged⟩ : ∃ m : Weights Float, m = ⟨[("a", ⟨some time, some weight⟩)]⟩ := ⟨_, rfl⟩
  have hn : merged.keys.Nodup := by
    rw [hmerged]
    exact List.nodup_singleton "a"
  have hrestored : merged.restored = ⟨[("a", ⟨some time, weight'⟩)]⟩ := by
    rw [hmerged]
    show (⟨[("a", ⟨Binary64.restored time, Binary64.restored weight⟩)]⟩ : Weights Float) = _
    rw [htime, hweight]
  have hold : (ofPathOrEmpty "w.json" : StateM FileTree _).run ⟨[]⟩ = ({}, ⟨[]⟩) := rfl
  have hlocate : (⟨[]⟩ : FileTree).locate "w.json" = .ok ["w.json"] := by decide +kernel
  have hsave := Storage.save_of_locate (by decide) (by decide) hlocate (by decide)
    (merged.toJson.textIn .pretty)
  have hread := run_ofPath_of_save hn hsave
  rw [hrestored] at hread
  rw [← hmerged] at hupdate ⊢
  exact ⟨_, (run_updateAt_iff hold).mpr ⟨hupdate, hsave⟩, hread⟩

/-- A weight that is too large is lost, and one that is finite may come out one below. -/
theorem updateAt_not_stored :
    let large := Binary64.ofBits false 4845873199050653695
    let below := Binary64.ofBits false 4845873199050653694
    (isFinite 1e300 = true ∧ isFinite 1e-300 = true ∧ isFinite 1000 = true ∧
      ∃ u, (updateAt "w.json" ⟨[("a", ⟨some 1e300, none⟩)]⟩ (some 1e-300) 1000 :
          StateM FileTree _).run ⟨[]⟩ =
            (.ok ⟨[("a", ⟨some 1e300, some (Binary64.ofBits false infinity)⟩)]⟩, u) ∧
        (ofPath "w.json" : StateM FileTree _).run u = (.ok ⟨[("a", ⟨some 1e300, none⟩)]⟩, u)) ∧
    (isFinite 1 = true ∧ isFinite large = true ∧ large ≠ below ∧
      ∃ u, (updateAt "w.json" ⟨[("a", ⟨some 1, none⟩)]⟩ none large : StateM FileTree _).run ⟨[]⟩ =
          (.ok ⟨[("a", ⟨some 1, some large⟩)]⟩, u) ∧
        (ofPath "w.json" : StateM FileTree _).run u =
          (.ok ⟨[("a", ⟨some 1, some below⟩)]⟩, u)) := by
  intro large below
  have htime : Binary64.restored 1e300 = some 1e300 := by decide +kernel
  have hlost : Binary64.restored (Binary64.ofBits false infinity) = none := by decide +kernel
  have hone : Binary64.restored 1 = some 1 := by decide +kernel
  have hbelow : Binary64.restored large = some below := by
    rw [Binary64.restored_of_finite (by decide +kernel), reread_largest]
  refine ⟨⟨by decide +kernel, by decide +kernel, by decide, ?_⟩, by decide, by decide +kernel,
    by decide +kernel, ?_⟩
  · exact run_updateAt_single (by decide +kernel) htime hlost
  · exact run_updateAt_single (by decide +kernel) hone hbelow

end Weights

end SuitePlan
