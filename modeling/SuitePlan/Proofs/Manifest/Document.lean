import SuitePlan.Manifest.Document
import SuitePlan.Proofs.Json.Record
import SuitePlan.Proofs.Manifest.Totals
import SuitePlan.Proofs.Time.Rfc3339

/-! Manifests come back from the documents they are written as: every count, all entries in their order,
and the time of generation to the nanosecond. -/

namespace SuitePlan

open Json (fields?_record asNat?_nat asList?_texts asList?_map required? defaulted? asText? asBool?)

namespace ExpectedScenario

theorem ofJson?_toJson {r : ExpectedScenario} (h : r.line < Numeral.natLimit) :
    ofJson? r.toJson = some r := by
  obtain ⟨name, line, tags, isExample⟩ := r
  cases isExample with
  | true =>
    rw [ofJson?, toJson, if_pos rfl, fields?_record (by simp)]
    simp [List.lookup_cons, required?, defaulted?, asText?, Json.text, asNat?_nat h, asList?_texts, asBool?]
  | false =>
    rw [ofJson?, toJson, if_neg (by simp), fields?_record (by simp)]
    simp [List.lookup_cons, required?, defaulted?, asText?, Json.text, asNat?_nat h, asList?_texts]

theorem numerals_toJson (r : ExpectedScenario) : r.toJson.numerals = [.ofNat r.line] := by
  cases h : r.isExample <;> simp [toJson, h, Json.numerals]

end ExpectedScenario

namespace ManifestEntry

/-- All numbers in the entry are counts of 64 bits. -/
structure Counted (e : ManifestEntry) : Prop where
  expected : e.expectedScenarios < Numeral.natLimit
  lines : ∀ r ∈ e.scenarios, r.line < Numeral.natLimit

theorem ofJson?_toJson {e : ManifestEntry} (h : e.Counted) : ofJson? e.toJson = some e := by
  have hscenarios := asList?_map (g := ExpectedScenario.toJson) fun r hr =>
    ExpectedScenario.ofJson?_toJson (h.lines r hr)
  rw [ofJson?, toJson, fields?_record (by simp)]
  simp [List.lookup_cons, required?, asText?, Json.text, asNat?_nat h.expected, hscenarios]

theorem numerals_toJson {e : ManifestEntry} (h : e.Counted) :
    ∀ n ∈ e.toJson.numerals, ∃ k < Numeral.natLimit, n = .ofNat k := by
  intro n hn
  simp only [toJson, Json.numerals_record, List.flatMap_cons, List.flatMap_nil, Json.numerals_text,
    Json.numerals_nat, Json.numerals_array, List.flatMap_map, ExpectedScenario.numerals_toJson,
    List.nil_append, List.append_nil, List.mem_append, List.mem_singleton, List.mem_flatMap] at hn
  rcases hn with rfl | ⟨r, hr, rfl⟩
  · exact ⟨_, h.expected, rfl⟩
  · exact ⟨_, h.lines r hr, rfl⟩

end ManifestEntry

namespace Manifest

/-- A manifest with entries in order of their keys, counts of 64 bits and a time in a year of four
digits. -/
structure Writable (m : Manifest) : Prop where
  ascending : Ascending m.specs
  counted : ∀ s ∈ m.specs, s.2.Counted
  totalSpecs_lt : m.totalSpecs < Numeral.natLimit
  totalScenarios_lt : m.totalScenarios < Numeral.natLimit
  time_valid : m.generatedAt.isValid
  year : 0 ≤ m.generatedAt.date.year ∧ m.generatedAt.date.year ≤ 9999
  nano : m.generatedAt.nano < 1000000000

theorem specsOfJson?_specsToJson {specs : List (String × ManifestEntry)} (ha : Ascending specs)
    (hc : ∀ s ∈ specs, s.2.Counted) : specsOfJson? (specsToJson specs) = some specs := by
  have hmap : (specs.map fun s => (s.1, s.2.toJson)).mapM
      (fun s => (ManifestEntry.ofJson? s.2).map (s.1, ·)) = some specs :=
    mapM_map_eq_some fun s hs => congrArg (Option.map (s.1, ·)) (ManifestEntry.ofJson?_toJson (hc s hs))
  have hsorted : specs.foldl (fun sorted s => putSorted s.1 s.2 sorted) [] = specs :=
    foldl_putSorted [] specs ha
  rw [specsOfJson?, specsToJson, Json.asMembers?_record]
  show Option.bind (List.mapM _ _) _ = some specs
  exact (congrArg (Option.bind · _) hmap).trans (congrArg some hsorted)

theorem numerals_toJson {m : Manifest} (h : m.Writable) :
    ∀ n ∈ m.toJson.numerals, ∃ k < Numeral.natLimit, n = .ofNat k := by
  intro n hn
  simp only [toJson, membersAfterTime, specsToJson, Json.numerals_record, List.flatMap_cons,
    List.flatMap_nil, Json.numerals_text, Json.numerals_nat, List.flatMap_map, List.nil_append,
    List.append_nil, List.mem_append, List.mem_singleton, List.mem_flatMap] at hn
  rcases hn with ⟨s, hs, hn⟩ | rfl | rfl
  · exact ManifestEntry.numerals_toJson (h.counted s hs) n hn
  · exact ⟨_, h.totalSpecs_lt, rfl⟩
  · exact ⟨_, h.totalScenarios_lt, rfl⟩

theorem ofJson?_toJson {m : Manifest} (h : m.Writable) : ofJson? m.toJson = some m := by
  have htime := Time.ofText?_text h.time_valid h.year h.nano
  have hspecs := specsOfJson?_specsToJson h.ascending h.counted
  rw [ofJson?, toJson, membersAfterTime, fields?_record (by simp)]
  simp [List.lookup_cons, required?, asText?, Json.text, asNat?_nat h.totalSpecs_lt,
    asNat?_nat h.totalScenarios_lt, htime, hspecs]

theorem ofText?_toJson_pretty {m : Manifest} (h : m.Writable) : ofText? m.toJson.pretty = some m := by
  have hread : Json.ofText? m.toJson.pretty = some m.toJson := by
    have hcounts : ∀ n ∈ m.toJson.numerals, n.Plain ∧ n.reread = n := by
      intro n hn
      obtain ⟨k, hk, rfl⟩ := numerals_toJson h n hn
      exact ⟨Numeral.plain_ofNat k, Numeral.reread_ofNat hk⟩
    exact Json.ofText?_textIn_self hcounts .pretty
  rw [ofText?, hread, Option.bind_some, ofJson?_toJson h]

theorem writable_insertAll {now : Time} {expression : Option String} {totalSpecs : Nat}
    {calls : List (String × ManifestEntry)} (hv : now.isValid)
    (hy : 0 ≤ now.date.year ∧ now.date.year ≤ 9999) (hn : now.nano < 1000000000)
    (ht : totalSpecs < Numeral.natLimit) (hc : ∀ c ∈ calls, c.2.Counted) :
    ((empty now expression totalSpecs).insertAll calls).Writable := by
  induction calls using List.reverseRecOn with
  | nil => exact ⟨List.Pairwise.nil, by simp [insertAll, empty], ht, Nat.zero_lt_of_lt ht, hv, hy, hn⟩
  | append_singleton calls c ih =>
    have h := ih fun d hd => hc d (List.mem_append_left _ hd)
    rw [insertAll_append_singleton]
    generalize (empty now expression totalSpecs).insertAll calls = m at h
    by_cases he : c.2.expectedScenarios = 0
    · rwa [insert_eq_of_zero _ _ he]
    · have hcount : ∀ s ∈ putSorted c.1 c.2 m.specs, s.2.Counted := by
        intro s hs
        rcases mem_putSorted hs with rfl | hs
        · exact hc c (by simp)
        · exact h.counted s hs
      have hmod : ∀ k, k % countLimit < Numeral.natLimit := by
        intro k
        rw [Numeral.natLimit_eq]
        exact Nat.mod_lt k (by decide)
      have hinsert : (m.insert c.1 c.2).1 = { m with
          specs := putSorted c.1 c.2 m.specs
          totalScenarios := (m.totalScenarios + countLimit - m.expectedAt c.1 +
            c.2.expectedScenarios) % countLimit } := by
        simp only [insert, if_neg he]
      rw [hinsert]
      exact ⟨h.ascending.putSorted c.1 c.2, hcount, h.totalSpecs_lt, hmod _, h.time_valid, h.year,
        h.nano⟩

/-- A manifest that is built from specs with their scenarios comes back from the text that is written
for it. The bounds are those of the counts and lines themselves and of the years of four digits. -/
theorem ofText?_pretty_insertAll (now : Time) (expression : Option String) (totalSpecs : Nat)
    (calls : List (String × String × List ExpectedScenario)) (hv : now.isValid)
    (hy : 0 ≤ now.date.year ∧ now.date.year ≤ 9999) (hn : now.nano < 1000000000)
    (ht : totalSpecs < countLimit)
    (hc : ∀ c ∈ calls, c.2.2.length < countLimit ∧ ∀ r ∈ c.2.2, r.line < countLimit) :
    let m := (empty now expression totalSpecs).insertAll
      (calls.map fun c => (c.1, ManifestEntry.ofRecords c.2.1 c.2.2))
    ofText? m.toJson.pretty = some m := by
  intro m
  have hcounted : ∀ c ∈ calls.map fun c => (c.1, ManifestEntry.ofRecords c.2.1 c.2.2),
      c.2.Counted := by
    intro c hm
    obtain ⟨d, hd, rfl⟩ := List.mem_map.mp hm
    exact ⟨(hc d hd).1, (hc d hd).2⟩
  exact ofText?_toJson_pretty (writable_insertAll hv hy hn ht hcounted)

theorem ofText?_pretty_insertAll_escapes :
    let now : Time := ⟨⟨9999, 12, 31⟩, 23, 59, 59, 120000⟩
    let calls : List (String × String × List ExpectedScenario) :=
      [("b/\"ü\".feature", "\u0001\n", [⟨"s", 3, ["@a", "\\"], true⟩, ⟨"", 18446744073709551615, [], false⟩]),
        ("a", "A", [⟨"t", 0, [], false⟩]), ("empty", "E", [])]
    let m : Manifest := ⟨now, "@a", [("a", ⟨"A", 1, [⟨"t", 0, [], false⟩]⟩),
      ("b/\"ü\".feature", ⟨"\u0001\n", 2, [⟨"s", 3, ["@a", "\\"], true⟩,
        ⟨"", 18446744073709551615, [], false⟩]⟩)], 3, 3⟩
    m = (empty now (some " @a ") 3).insertAll
        (calls.map fun c => (c.1, ManifestEntry.ofRecords c.2.1 c.2.2)) ∧
      ofText? m.toJson.pretty = some m := by
  intro now calls m
  have hm : m = (empty now (some " @a ") 3).insertAll
      (calls.map fun c => (c.1, ManifestEntry.ofRecords c.2.1 c.2.2)) := by
    decide
  have hc : ∀ c ∈ calls, c.2.2.length < countLimit ∧ ∀ r ∈ c.2.2, r.line < countLimit := by
    decide
  have hread := ofText?_pretty_insertAll now (some " @a ") 3 calls (by decide) (by decide)
    (by decide) (by decide) hc
  exact ⟨hm, hm ▸ hread⟩

end Manifest

end SuitePlan
