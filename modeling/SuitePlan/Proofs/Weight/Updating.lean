import SuitePlan.Proofs.Storage.Saving
import SuitePlan.Proofs.Weight.Document
import SuitePlan.Weight.File

/-! Updating a weight file. The timed keys get new entries and all other entries stay as they are. A second
update reads what the first one wrote, so it may find a double of these other entries changed. -/

namespace SuitePlan

namespace Weights

section Timed

variable {W : Type}

/-- The time of a key, if it has one. -/
def timeOf? (t : Weights W) (key : String) : Option W := (t.get? key).bind (·.time)

/-- The keys that have a time. -/
def timedKeys (t : Weights W) : List String := (t.entries.filter (·.2.time.isSome)).map (·.1)

theorem nodup_timedKeys {t : Weights W} (h : t.keys.Nodup) : t.timedKeys.Nodup :=
  h.sublist (List.filter_sublist.map _)

variable [Zero W] [Mul W] [Div W] [LT W] [DecidableLT W] [RoundDown W]

def weighed (total budget time : W) : Weighing W := ⟨some time, some (share total budget time)⟩

theorem entries_ofTimings {t : Weights W} (h : t.keys.Nodup) (total budget : W) :
    (t.ofTimings total budget).entries =
      t.entries.filterMap fun (k, e) => (e.time.map (weighed total budget)).map (k, ·) := by
  have hlist : (t.entries.filterMap fun (k, e) => e.time.map fun time =>
        (k, (⟨some time, some (share total budget time)⟩ : Weighing W))) =
      t.entries.filterMap fun (k, e) => (e.time.map (weighed total budget)).map (k, ·) :=
    List.filterMap_congr fun (k, e) _ => (Option.map_map (k, ·) _ e.time).symm
  have hkeys : (t.entries.filterMap fun (k, e) =>
      (e.time.map (weighed total budget)).map (k, ·)).map (·.1) = t.timedKeys := by
    rw [map_fst_filterMap_value fun e : Weighing W => e.time.map (weighed total budget)]
    simp only [Option.isSome_map, timedKeys]
  rw [ofTimings, hlist]
  refine congrArg entries (ofList_entries (t := ⟨_⟩) ?_)
  rw [keys, hkeys]
  exact nodup_timedKeys h

theorem keys_ofTimings {t : Weights W} (h : t.keys.Nodup) (total budget : W) :
    (t.ofTimings total budget).keys = t.timedKeys := by
  rw [keys, entries_ofTimings h,
    map_fst_filterMap_value fun e : Weighing W => e.time.map (weighed total budget)]
  simp only [Option.isSome_map, timedKeys]

theorem get?_ofTimings {t : Weights W} (h : t.keys.Nodup) (total budget : W) (key : String) :
    (t.ofTimings total budget).get? key = (t.timeOf? key).map (weighed total budget) := by
  rw [get?, entries_ofTimings h,
    lookup_filterMap_value (fun e : Weighing W => e.time.map (weighed total budget)) key h, timeOf?,
    get?, Option.map_bind]
  rfl

/-- What an update makes of a table: timed keys get new entries, and all other keys keep theirs. -/
structure Updated (existing timings merged : Weights W) (total budget : W) : Prop where
  keys_eq : merged.keys = existing.keys ++ timings.timedKeys.filter (· ∉ existing.keys)
  timed : ∀ key time, timings.timeOf? key = some time →
    merged.get? key = some ⟨some time, some (share total budget time)⟩
  untimed : ∀ key, timings.timeOf? key = none → merged.get? key = existing.get? key

namespace Updated

variable {existing timings merged : Weights W} {total budget : W}

theorem nodup (h : Updated existing timings merged total budget) (he : existing.keys.Nodup)
    (ht : timings.keys.Nodup) : merged.keys.Nodup := by
  rw [h.keys_eq]
  refine List.nodup_append'.mpr ⟨he, (nodup_timedKeys ht).filter _, fun key hold hnew => ?_⟩
  simp [hold] at hnew

/-- The keys with a time are all there after an update, so another one adds none. -/
theorem filter_timedKeys (h : Updated existing timings merged total budget) :
    timings.timedKeys.filter (· ∉ merged.keys) = [] := by
  refine List.filter_eq_nil_iff.mpr fun key hkey => ?_
  rw [decide_eq_true_eq, not_not, h.keys_eq, List.mem_append, List.mem_filter]
  by_cases hold : key ∈ existing.keys
  · exact .inl hold
  · exact .inr ⟨hkey, decide_eq_true hold⟩

end Updated

variable [Add W]

theorem updated_update {t timings : Weights W} (ht : t.keys.Nodup) (h : timings.keys.Nodup)
    (total : Option W) (budget : W) :
    Updated t timings (t.update timings total budget) (total.getD timings.totalTime) budget := by
  have hkeys := keys_ofTimings h (total.getD timings.totalTime) budget
  have hnew : (timings.ofTimings (total.getD timings.totalTime) budget).keys.Nodup := by
    rw [hkeys]
    exact nodup_timedKeys h
  refine ⟨?_, fun key time htime => ?_, fun key hnone => ?_⟩
  · rw [update, keys_merge ht hnew, hkeys]
  · rw [update, get?_merge ht hnew, get?_ofTimings h, htime]
    rfl
  · rw [update, get?_merge ht hnew, get?_ofTimings h, hnone]
    rfl

end Timed

/-- A second update works on what is read where the first one wrote. -/
theorem Updated.again {existing timings merged again : Weights Float} {total budget : Float}
    (h : Updated existing timings merged total budget)
    (h' : Updated merged.restored timings again total budget) :
    Updated existing.restored timings again total budget := by
  refine ⟨?_, h'.timed, fun key hnone => ?_⟩
  · rw [h'.keys_eq, keys_restored, keys_restored, h.filter_timedKeys, List.append_nil, h.keys_eq]
  · rw [h'.untimed key hnone, get?_restored, get?_restored, h.untimed key hnone]

/-- Two updates give the same table where they leave the same entries alone. -/
theorem Updated.eq_iff {existing other timings merged again : Weights Float} {total budget : Float}
    (h : Updated existing timings merged total budget)
    (h' : Updated other timings again total budget) (hkeys : again.keys = merged.keys)
    (hn : merged.keys.Nodup) :
    again = merged ↔ ∀ key, timings.timeOf? key = none → other.get? key = existing.get? key := by
  constructor
  · rintro rfl key hnone
    rw [← h'.untimed key hnone, h.untimed key hnone]
  · intro hsame
    refine eq_of_get? (hkeys ▸ hn) hkeys fun key => ?_
    cases htime : timings.timeOf? key with
    | none => rw [h'.untimed key htime, h.untimed key htime, hsame key htime]
    | some time => rw [h'.timed key time htime, h.timed key time htime]

section Run

variable {t u : FileTree} {path s : String} {timings existing merged : Weights Float}
  {total : Option Float} {budget : Float}

theorem run_ofPathOrEmpty (hread : t.read path = .ok s) (hs : ofText? s = some existing) :
    (ofPathOrEmpty path : StateM FileTree _).run t = (existing, t) := by
  have hpath : (ofPath path : StateM FileTree _).run t = (.ok existing, t) := by
    show (ofContent (t.read path), t) = _
    rw [hread, ofContent, hs]
  rw [ofPathOrEmpty, Storage.run_bind, hpath]
  rfl

/-- An update succeeds if the table that it makes of the existing one can be saved. -/
theorem run_updateAt_iff (hold : (ofPathOrEmpty path : StateM FileTree _).run t = (existing, t)) :
    (updateAt path timings total budget : StateM FileTree _).run t = (.ok merged, u) ↔
      merged = existing.update timings total budget ∧
        (Storage.save path (merged.toJson.textIn .pretty) : StateM FileTree _).run t =
          (.ok (), u) := by
  rw [updateAt, Storage.run_bind, hold]
  dsimp only
  rw [Storage.run_bind]
  show _ ↔ _ ∧ (Storage.save path merged.toJson.pretty : StateM FileTree _).run t = _
  generalize existing.update timings total budget = m
  constructor
  · intro h
    generalize hr : (Storage.save path m.toJson.pretty : StateM FileTree _).run t = r at h
    obtain ⟨_ | _, v⟩ := r
    · cases h
    · cases h
      exact ⟨rfl, hr⟩
  · rintro ⟨rfl, hsave⟩
    rw [hsave]
    rfl

theorem run_updateAt_eq_ok_iff (hread : t.read path = .ok s) (hs : ofText? s = some existing) :
    (updateAt path timings total budget : StateM FileTree _).run t = (.ok merged, u) ↔
      merged = existing.update timings total budget ∧
        (Storage.save path (merged.toJson.textIn .pretty) : StateM FileTree _).run t =
          (.ok (), u) :=
  run_updateAt_iff (run_ofPathOrEmpty hread hs)

/-- After an update there is a file that can be updated again. It holds the table that is read where
the first one was written. -/
theorem run_updateAt_again (hread : t.read path = .ok s) (hs : ofText? s = some existing)
    (hrun : (updateAt path timings total budget : StateM FileTree _).run t = (.ok merged, u))
    (hn : merged.keys.Nodup) :
    ∃ v, (updateAt path timings total budget : StateM FileTree _).run u =
      (.ok (merged.restored.update timings total budget), v) := by
  obtain ⟨-, hsave⟩ := (run_updateAt_eq_ok_iff hread hs).mp hrun
  obtain ⟨v, hagain⟩ := Storage.save_again hsave
    ((merged.restored.update timings total budget).toJson.textIn .pretty)
  have hwritten := Storage.read_of_save hsave
  exact ⟨v, (run_updateAt_eq_ok_iff hwritten (ofText?_restored hn .pretty)).mpr ⟨rfl, hagain⟩⟩

end Run

/-- A successful update of a table in a file keeps the keys and their order and puts the new timed keys
behind them, gives every timed key its time and its share of the budget, and leaves all other entries
alone. The same update of the file just written succeeds again, and its result differs from the first
one only where a double of these other entries is not read as it was written. -/
theorem updateAt_twice {h : List (String × Weighing Float)} {timings existing merged : Weights Float}
    {t u : FileTree} {path s : String} {total : Option Float} {budget : Float}
    (htimings : Built h timings) (hread : t.read path = .ok s) (hs : ofText? s = some existing)
    (hrun : (updateAt path timings total budget : StateM FileTree _).run t = (.ok merged, u)) :
    Updated existing timings merged (total.getD timings.totalTime) budget ∧
      ∃ again v, (updateAt path timings total budget : StateM FileTree _).run u = (.ok again, v) ∧
        Updated existing.reread timings again (total.getD timings.totalTime) budget ∧
        again.keys = merged.keys ∧
        (again = merged ↔ ∀ key e, timings.timeOf? key = none → existing.get? key = some e →
          ∀ x ∈ e.doubles, Binary64.reread x = x) := by
  have hw := writable_of_ofText? hs
  have ht := htimings.keeps.nodup
  obtain ⟨rfl, -⟩ := (run_updateAt_eq_ok_iff hread hs).mp hrun
  have hfirst := updated_update hw.nodup ht total budget
  have hn := hfirst.nodup hw.nodup ht
  obtain ⟨v, hagain⟩ := run_updateAt_again hread hs hrun hn
  -- the file has no other keys than the first result, and only its doubles may be different
  have hsecond := hfirst.again (updated_update (by rwa [keys_restored]) ht total budget)
  rw [restored_eq_reread hw] at hsecond
  have hkeys := hsecond.keys_eq
  rw [keys_reread, ← hfirst.keys_eq] at hkeys
  refine ⟨hfirst, _, v, hagain, hsecond, hkeys, ?_⟩
  rw [hfirst.eq_iff hsecond hkeys hn]
  refine forall_congr' fun key => ?_
  rw [get?_reread]
  cases existing.get? key with
  | none => simp
  | some e => simp [Weighing.reread_eq_self_iff]

theorem updateAt_twice_overlapping :
    let s := "\x7b\"old\":\x7b\"time\":1.5\x7d,\"a\":\x7b\"weight\":7\x7d\x7d"
    let t : FileTree := ⟨[(["w.json"], .file (some s))]⟩
    let timings : Weights Float := ⟨[("b", ⟨some 100, none⟩), ("old", {}), ("a", ⟨some 300, none⟩)]⟩
    let merged : Weights Float :=
      ⟨[("old", ⟨some 1.5, none⟩), ("a", ⟨some 300, some 75⟩), ("b", ⟨some 100, some 25⟩)]⟩
    ∃ u v, (updateAt "w.json" timings none 100 : StateM FileTree _).run t = (.ok merged, u) ∧
      merged.keys = ["old", "a"] ++ ["b"] ∧
      (updateAt "w.json" timings none 100 : StateM FileTree _).run u = (.ok merged, v) := by
  intro s t timings merged
  have htimings : Built [("b", ⟨some 100, none⟩), ("old", {}), ("a", ⟨some 300, none⟩)] timings :=
    .insert _ _ (.insert _ _ (.insert _ _ .empty))
  have hs : ofText? s = some ⟨[("old", ⟨some 1.5, none⟩), ("a", ⟨none, some 7⟩)]⟩ := by
    decide +kernel
  have hread : t.read "w.json" = .ok s := by decide +kernel
  have hlocate : t.locate "w.json" = .ok ["w.json"] := by decide +kernel
  have hsave := Storage.save_of_locate (by decide) (by decide) hlocate (by decide)
    (merged.toJson.textIn .pretty)
  have hupdate : merged = Weights.update ⟨[("old", ⟨some 1.5, none⟩), ("a", ⟨none, some 7⟩)]⟩
      timings none 100 := by
    decide +kernel
  have hrun := (run_updateAt_eq_ok_iff hread hs).mpr ⟨hupdate, hsave⟩
  obtain ⟨hfirst, again, v, hagain, -, -, hsame⟩ := updateAt_twice htimings hread hs hrun
  have hold : again = merged := by
    refine hsame.mpr fun key e hnone hget => ?_
    rw [get?, lookup_cons_eq, lookup_cons_eq] at hget
    split_ifs at hget with hkey ha
    · cases hget
      decide +kernel
    · rw [ha] at hnone
      cases hnone
    · cases hget
  have hkeys := hfirst.keys_eq
  rw [hold] at hagain
  exact ⟨_, v, hrun, hkeys, hagain⟩

/-- A weight that nothing measured comes out one below what was read. -/
theorem updateAt_rounded :
    let s := "\x7b\"a\":\x7b\"weight\":9007199254740991\x7d\x7d"
    let t : FileTree := ⟨[(["w.json"], .file (some s))]⟩
    let x := Binary64.ofBits false 4845873199050653695
    let y := Binary64.ofBits false 4845873199050653694
    t.read "w.json" = .ok s ∧ ofText? s = some ⟨[("a", ⟨none, some x⟩)]⟩ ∧ x ≠ y ∧
      ∃ u v, (updateAt "w.json" {} none 1000 : StateM FileTree _).run t =
          (.ok ⟨[("a", ⟨none, some x⟩)]⟩, u) ∧
        (updateAt "w.json" {} none 1000 : StateM FileTree _).run u =
          (.ok ⟨[("a", ⟨none, some y⟩)]⟩, v) := by
  intro s t x y
  have hread : t.read "w.json" = .ok s := by decide +kernel
  have hs : ofText? s = some ⟨[("a", ⟨none, some x⟩)]⟩ := by decide +kernel
  have hlocate : t.locate "w.json" = .ok ["w.json"] := by decide +kernel
  have hsave := Storage.save_of_locate (by decide) (by decide) hlocate (by decide)
  have hrun : (updateAt "w.json" {} none 1000 : StateM FileTree _).run t =
      (.ok ⟨[("a", ⟨none, some x⟩)]⟩, _) :=
    (run_updateAt_eq_ok_iff hread hs).mpr ⟨rfl, hsave _⟩
  have hy : Binary64.restored x = some y := by
    rw [Binary64.restored_of_finite (by decide +kernel), reread_largest]
  have hrestored : (⟨[("a", ⟨none, some x⟩)]⟩ : Weights Float).restored =
      ⟨[("a", ⟨none, some y⟩)]⟩ := by
    show (⟨[("a", ⟨none, Binary64.restored x⟩)]⟩ : Weights Float) = _
    rw [hy]
  obtain ⟨v, hagain⟩ := run_updateAt_again hread hs hrun (List.nodup_singleton "a")
  rw [hrestored] at hagain
  exact ⟨hread, hs, by decide +kernel, _, v, hrun, hagain⟩

end Weights

end SuitePlan
