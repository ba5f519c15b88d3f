import SuitePlan.Proofs.Json.Doubles
import SuitePlan.Proofs.Json.Record
import SuitePlan.Proofs.Weight.Merging

/-! Weight tables that are written and read again. Keys, their order and what is absent come back as
they are, and every double as it is read from its text. -/

namespace SuitePlan

open Json (fields?_record required? defaulted? asOption? asFloat?)

namespace Json

theorem mapNumerals_record (f : Numeral → Numeral) (ms : List (String × Json)) :
    (record ms).mapNumerals f = record (ms.map fun (k, j) => (k, j.mapNumerals f)) := by
  rw [record, record, mapNumerals]
  congr 1
  induction ms with
  | nil => rfl
  | cons m ms ih => rw [List.map_cons, mapMembers, ih, List.map_cons, List.map_cons]

theorem float_eq {x : Float} (h : Binary64.magnitude x < Binary64.infinity) :
    float x = .number (.ofFloat x) :=
  if_pos (decide_eq_true h)

theorem float_eq_null {x : Float} (h : ¬ Binary64.magnitude x < Binary64.infinity) :
    float x = .null :=
  if_neg (mt of_decide_eq_true h)

theorem plain_of_mem_float {x : Float} : ∀ n ∈ (float x).numerals, n.Plain := by
  by_cases h : Binary64.magnitude x < Binary64.infinity
  · rw [float_eq h, numerals]
    exact List.forall_mem_singleton.mpr (Binary64.plain_ofFloat h)
  · rw [float_eq_null h]
    exact List.forall_mem_nil _

theorem finite_of_toFloat? {n : Numeral} {x : Float} (h : n.toFloat? = some x) :
    Binary64.magnitude x < Binary64.infinity := by
  rw [Numeral.toFloat?] at h
  split_ifs at h with hb
  cases h
  rwa [Binary64.magnitude_ofBits _ hb]

end Json

/-- The double that is read where this one was written. What is not finite is written as null. -/
def Binary64.restored (x : Float) : Option Float := if isFinite x then some (reread x) else none

theorem Binary64.restored_of_finite {x : Float} (h : magnitude x < infinity) :
    restored x = some (reread x) :=
  if_pos (decide_eq_true h)

theorem Json.number_restored (x : Float) :
    asOption? asFloat? ((float x).mapNumerals Numeral.reread) = some (Binary64.restored x) := by
  by_cases h : Binary64.magnitude x < Binary64.infinity
  · rw [Binary64.restored_of_finite h, float_eq h, mapNumerals, asOption?, asFloat?,
      Binary64.toFloat?_reread h]
    · rfl
    · intro hnull
      cases hnull
  · have hnone : Binary64.restored x = none := if_neg (mt of_decide_eq_true h)
    rw [hnone, float_eq_null h]
    rfl

namespace Weighing

def doubles (e : Weighing Float) : List Float := e.time.toList ++ e.weight.toList

/-- The entry with every double as it is read from its text. -/
def reread (e : Weighing Float) : Weighing Float :=
  ⟨e.time.map Binary64.reread, e.weight.map Binary64.reread⟩

theorem finite_of_number {j : Option Json} {x : Float}
    (h : defaulted? none (asOption? asFloat?) j = some (some x)) :
    Binary64.magnitude x < Binary64.infinity := by
  match j with
  | some (.number n) =>
    obtain ⟨y, hy, hx⟩ := Option.map_eq_some_iff.mp h
    cases hx
    exact Json.finite_of_toFloat? hy
  | none => cases h
  | some .null => cases h

theorem finite_of_ofJson? {j : Json} {e : Weighing Float} (h : ofJson? j = some e) :
    ∀ x ∈ e.doubles, Binary64.magnitude x < Binary64.infinity := by
  rw [ofJson?] at h
  obtain ⟨fields, hfields, h⟩ := Option.bind_eq_some_iff.mp h
  rcases fields with _ | ⟨time, _ | ⟨weight, _ | ⟨other, fields⟩⟩⟩
  · cases h
  · cases h
  · obtain ⟨t, ht, h⟩ := Option.bind_eq_some_iff.mp h
    obtain ⟨w, hw, h⟩ := Option.bind_eq_some_iff.mp h
    cases h
    intro x hx
    rcases List.mem_append.mp hx with hx | hx
    · obtain rfl := Option.mem_toList.mp hx
      exact finite_of_number ht
    · obtain rfl := Option.mem_toList.mp hx
      exact finite_of_number hw
  · cases h

/-- The entry that is read where this one was written. -/
def restored (e : Weighing Float) : Weighing Float :=
  ⟨e.time.bind Binary64.restored, e.weight.bind Binary64.restored⟩

theorem restored_eq_reread {e : Weighing Float}
    (h : ∀ x ∈ e.doubles, Binary64.magnitude x < Binary64.infinity) : e.restored = e.reread := by
  have hdouble : ∀ x ∈ e.doubles, _ := fun x hx => Binary64.restored_of_finite (h x hx)
  obtain ⟨time, weight⟩ := e
  cases time <;> cases weight <;> simp_all [doubles, restored, reread]

theorem reread_eq_self_iff {e : Weighing Float} :
    e.reread = e ↔ ∀ x ∈ e.doubles, Binary64.reread x = x := by
  obtain ⟨time, weight⟩ := e
  cases time <;> cases weight <;> simp [reread, doubles]

theorem plain_of_mem_numerals {e : Weighing Float} : ∀ n ∈ e.toJson.numerals, n.Plain := by
  intro n hn
  rw [toJson, Json.numerals_record] at hn
  obtain ⟨p, hp, hn⟩ := List.mem_flatMap.mp hn
  rcases List.mem_append.mp hp with hp | hp
  all_goals
    obtain ⟨x, -, rfl⟩ := Option.map_eq_some_iff.mp (Option.mem_toList.mp hp)
    exact Json.plain_of_mem_float n hn

theorem ofJson?_restored (e : Weighing Float) :
    ofJson? (e.toJson.mapNumerals Numeral.reread) = some e.restored := by
  rw [toJson, Json.mapNumerals_record, ofJson?, fields?_record]
  · obtain ⟨time, weight⟩ := e
    cases time <;> cases weight <;> simp [restored, List.lookup, defaulted?, Json.number_restored]
  · obtain ⟨time, weight⟩ := e
    cases time <;> cases weight <;> simp

end Weighing

namespace Weights

def doubles (t : Weights Float) : List Float := t.entries.flatMap (·.2.doubles)

/-- The table with every double as it is read from its text. -/
def reread (t : Weights Float) : Weights Float := ⟨t.entries.map fun (k, e) => (k, e.reread)⟩

/-- A table with one entry for a key and doubles that have a text. -/
structure Writable (t : Weights Float) : Prop where
  nodup : t.keys.Nodup
  finite : ∀ x ∈ t.doubles, Binary64.magnitude x < Binary64.infinity

theorem mem_insertEntry {W : Type} {key : String} {e : Weighing W} {l : List (String × Weighing W)}
    {x : String × Weighing W} (h : x ∈ insertEntry key e l) : x = (key, e) ∨ x ∈ l := by
  induction l with
  | nil => exact .inl (List.mem_singleton.mp h)
  | cons y l ih =>
    obtain ⟨k, old⟩ := y
    by_cases hk : k = key
    · rw [insertEntry, if_pos hk, hk] at h
      exact (List.mem_cons.mp h).imp id (List.mem_cons_of_mem _)
    · rw [insertEntry, if_neg hk] at h
      rcases List.mem_cons.mp h with rfl | h
      · exact .inr List.mem_cons_self
      · exact (ih h).imp id (List.mem_cons_of_mem _)

theorem mem_ofList {W : Type} {l : List (String × Weighing W)} {x : String × Weighing W}
    (h : x ∈ (ofList l).entries) : x ∈ l := by
  induction l using List.reverseRecOn with
  | nil => exact h
  | append_singleton l y ih =>
    rw [ofList, List.foldl_append] at h
    rcases mem_insertEntry h with rfl | h
    · simp
    · exact List.mem_append_left _ (ih h)

theorem ofList_entries {W : Type} {t : Weights W} (h : t.keys.Nodup) : ofList t.entries = t :=
  (Keeps.empty.insertAll t.entries).unique (Keeps.of_nodup h)

theorem writable_of_ofText? {s : String} {t : Weights Float} (h : ofText? s = some t) :
    t.Writable := by
  obtain ⟨j, -, h⟩ := Option.bind_eq_some_iff.mp h
  rw [ofJson?_eq] at h
  obtain ⟨entries, hentries, rfl⟩ := Option.map_eq_some_iff.mp h
  refine ⟨(Keeps.empty.insertAll entries).nodup, ?_⟩
  intro x hx
  obtain ⟨⟨k, e⟩, he, hx⟩ := List.mem_flatMap.mp hx
  obtain ⟨members, -, hmembers⟩ := Option.bind_eq_some_iff.mp hentries
  obtain ⟨m, -, hm⟩ := exists_of_mem_mapM hmembers (mem_ofList he)
  obtain ⟨d, hv, hpair⟩ := Option.map_eq_some_iff.mp hm
  cases hpair
  exact Weighing.finite_of_ofJson? hv x hx

/-- The table that is read where this one was written. -/
def restored (t : Weights Float) : Weights Float := ⟨t.entries.map fun (k, e) => (k, e.restored)⟩

theorem keys_restored (t : Weights Float) : t.restored.keys = t.keys := by
  rw [keys, restored, List.map_map]
  rfl

theorem get?_restored (t : Weights Float) (key : String) :
    t.restored.get? key = (t.get? key).map Weighing.restored :=
  lookup_map_value Weighing.restored key t.entries

theorem restored_eq_reread {t : Weights Float} (h : t.Writable) : t.restored = t.reread := by
  rw [restored, reread]
  refine congrArg Weights.mk (List.map_congr_left fun p hp => ?_)
  exact congrArg (p.1, ·) (Weighing.restored_eq_reread fun x hx =>
    h.finite x (List.mem_flatMap.mpr ⟨p, hp, hx⟩))

theorem ofJson?_restored {t : Weights Float} (h : t.keys.Nodup) :
    ofJson? (t.toJson.mapNumerals Numeral.reread) = some t.restored := by
  have hentries : (t.entries.map fun (k, e) => (k, e.toJson.mapNumerals Numeral.reread)).mapM
      (fun (k, v) => (Weighing.ofJson? v).map (k, ·)) = some t.restored.entries := by
    rw [List.mapM_map]
    apply mapM_eq_some
    exact fun p _ => congrArg (Option.map (p.1, ·)) p.2.ofJson?_restored
  rw [toJson, Json.mapNumerals_record, List.map_map, ofJson?_eq, documentEntries?,
    Json.asMembers?_record]
  rw [← keys_restored] at h
  exact (congrArg (Option.map ofList) hentries).trans (congrArg some (ofList_entries h))

/-- Any table with one entry for a key can be written and read. -/
theorem ofText?_restored {t : Weights Float} (h : t.keys.Nodup) (style : Json.Layout) :
    ofText? (t.toJson.textIn style) = some t.restored := by
  have hplain : ∀ n ∈ t.toJson.numerals, n.Plain := by
    intro n hn
    rw [toJson, Json.numerals_record, List.flatMap_map] at hn
    obtain ⟨p, -, hn⟩ := List.mem_flatMap.mp hn
    exact Weighing.plain_of_mem_numerals n hn
  rw [ofText?, Json.ofText?_textIn hplain style, Option.bind_some, ofJson?_restored h]

theorem ofText?_toJson {t : Weights Float} (h : t.Writable) (style : Json.Layout) :
    ofText? (t.toJson.textIn style) = some t.reread := by
  rw [ofText?_restored h.nodup style, restored_eq_reread h]

theorem map_entries_eq_self_iff (f : Weighing Float → Weighing Float) (t : Weights Float) :
    (⟨t.entries.map fun (k, e) => (k, f e)⟩ : Weights Float) = t ↔ ∀ p ∈ t.entries, f p.2 = p.2 := by
  obtain ⟨entries⟩ := t
  rw [Weights.mk.injEq]
  nth_rewrite 2 [← List.map_id entries]
  rw [List.map_inj_left]
  refine forall₂_congr fun p _ => ⟨congrArg Prod.snd, fun hp => ?_⟩
  exact Prod.ext rfl hp

theorem forall_mem_doubles {P : Float → Prop} {t : Weights Float} :
    (∀ x ∈ t.doubles, P x) ↔ ∀ p ∈ t.entries, ∀ x ∈ p.2.doubles, P x :=
  List.forall_mem_flatMap

theorem reread_eq_self_iff {t : Weights Float} :
    t.reread = t ↔ ∀ x ∈ t.doubles, Binary64.reread x = x := by
  rw [reread, map_entries_eq_self_iff, forall_mem_doubles]
  exact forall₂_congr fun _ _ => Weighing.reread_eq_self_iff

theorem get?_reread (t : Weights Float) (key : String) :
    t.reread.get? key = (t.get? key).map Weighing.reread :=
  lookup_map_value Weighing.reread key t.entries

theorem keys_reread (t : Weights Float) : t.reread.keys = t.keys := by
  rw [keys, reread, List.map_map]
  rfl

/-- A table that was read comes back from either layout with its keys in order and with what is
absent. Each double keeps its sign and is read from its own text: the digits of that text are rounded,
then the power of ten, then their product or quotient. So it is the same double where the first two
steps are exact, and the table comes back unchanged where this holds of all its doubles. -/
theorem ofText?_written {s : String} {t : Weights Float} (h : ofText? s = some t)
    (style : Json.Layout) :
    ofText? (t.toJson.textIn style) = some t.reread ∧
      t.reread.keys = t.keys ∧ t.keys.Nodup ∧
      (∀ key, t.reread.get? key = (t.get? key).map Weighing.reread) ∧
      (t.reread = t ↔ ∀ x ∈ t.doubles, Binary64.reread x = x) ∧
      ∀ x ∈ t.doubles,
        Binary64.isNegative (Binary64.reread x) = Binary64.isNegative x ∧
        let n := (Numeral.ofFloat x).reread
        (n.digits < 2 ^ 53 → -22 ≤ n.exponent ∧ n.exponent ≤ 22 → Binary64.reread x = x) := by
  have hw := writable_of_ofText? h
  refine ⟨ofText?_toJson hw style, keys_reread t, hw.nodup, get?_reread t, reread_eq_self_iff, ?_⟩
  intro x hx
  have hfinite := hw.finite x hx
  exact ⟨Binary64.isNegative_reread hfinite, fun hd he => Binary64.reread_eq hfinite hd he⟩

theorem ofText?_written_zero :
    let s := "\x7b\"b\":\x7b\"time\":-0.0,\"weight\":1\x7d,\"a\":\x7b\"time\":null\x7d," ++
      "\"b\":\x7b\"time\":-0,\"weight\":0.625e2\x7d\x7d"
    let t : Weights Float := ⟨[("b", ⟨some (Binary64.ofBits true 0), some 62.5⟩), ("a", {})]⟩
    ofText? s = some t ∧ ofText? (t.toJson.textIn .pretty) = some t := by
  intro s t
  have hs : ofText? s = some t := by decide +kernel
  obtain ⟨hread, -, -, -, hself, hdoubles⟩ := ofText?_written hs .pretty
  have hexact : ∀ x ∈ t.doubles, (Numeral.ofFloat x).reread.digits < 2 ^ 53 ∧
      -22 ≤ (Numeral.ofFloat x).reread.exponent ∧ (Numeral.ofFloat x).reread.exponent ≤ 22 := by
    decide +kernel
  have hsame : t.reread = t := hself.mpr fun x hx =>
    (hdoubles x hx).2 (hexact x hx).1 (hexact x hx).2
  exact ⟨hs, hread.trans (congrArg some hsame)⟩

/-- The largest odd whole number of 53 bits has one digit too many once a zero follows the point. -/
theorem reread_largest :
    Binary64.reread (Binary64.ofBits false 4845873199050653695) =
      Binary64.ofBits false 4845873199050653694 := by
  have hn : (Numeral.ofFloat (Binary64.ofBits false 4845873199050653695)).reread =
      ⟨false, 90071992547409910, -1, false⟩ := by
    decide +kernel
  have hlower : Numeral.stepwise 90071992547409910 (-1) = 4845873199050653694 := by
    rw [Numeral.stepwise, if_neg (by decide), Numeral.lower]
    decide +kernel
  rw [Binary64.reread, hn, hlower]
  decide +kernel

theorem written_rounded :
    let s := "\x7b\"a\":\x7b\"weight\":9007199254740991\x7d\x7d"
    let x := Binary64.ofBits false 4845873199050653695
    let y := Binary64.ofBits false 4845873199050653694
    let t : Weights Float := ⟨[("a", ⟨none, some x⟩)]⟩
    ofText? s = some t ∧ x ≠ y ∧
      ∀ style, ofText? (t.toJson.textIn style) = some ⟨[("a", ⟨none, some y⟩)]⟩ := by
  intro s x y t
  have hs : ofText? s = some t := by decide +kernel
  have hne : x ≠ y := by decide +kernel
  refine ⟨hs, hne, fun style => ?_⟩
  rw [ofText?_toJson (writable_of_ofText? hs) style]
  show some (⟨[("a", ⟨none, some (Binary64.reread x)⟩)]⟩ : Weights Float) = _
  rw [reread_largest]

end Weights

end SuitePlan
