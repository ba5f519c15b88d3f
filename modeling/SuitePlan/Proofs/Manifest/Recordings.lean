import Mathlib.Algebra.BigOperators.Group.List.Basic
import Mathlib.Data.List.Nodup
import SuitePlan.FileTree
import SuitePlan.Manifest.File
import SuitePlan.Proofs.Manifest.Totals

/-! The manifest of some specs as a run of insertions. A spec that cannot be read, has no feature or
expects no scenarios inserts nothing, so the others are recorded as if it were not there. -/

namespace SuitePlan

/-- The entry for a document with a feature that expects scenarios. No other document has one. -/
def ManifestEntry.recorded? (d : Except SpecError Gherkin.Document) : Option ManifestEntry :=
  match d with
  | .ok (some f) => if f.records = [] then none else some (ofRecords f.heading.name f.records)
  | _ => none

open ManifestEntry (recorded?)

theorem ManifestEntry.expectedScenarios_of_recorded? {d : Except SpecError Gherkin.Document}
    {e : ManifestEntry} (h : recorded? d = some e) : e.expectedScenarios ≠ 0 := by
  unfold recorded? at h
  split at h
  · split at h
    · cases h
    · next f hf =>
      cases h
      simpa [ofRecords] using hf
  · cases h

namespace Manifest

/-- The manifest of the specs at some paths, whose documents come from any source. -/
def ofSource (now : Time) (base : String) (tagExpression : Option String)
    (load : String → Except SpecError Gherkin.Document) (paths : List String) : Manifest :=
  ofDocuments now base tagExpression (paths.map fun p => (p, load p))

/-- The insertions that the documents of some specs call for. -/
def recordings (base : String) (load : String → Except SpecError Gherkin.Document)
    (paths : List String) : List (String × ManifestEntry) :=
  paths.filterMap fun p => (recorded? (load p)).map (specKey base p, ·)

section

variable (base : String) (load : String → Except SpecError Gherkin.Document)

theorem add_eq (m : Manifest) (p : String) (d : Except SpecError Gherkin.Document) :
    add base m (p, d) = m.insertAll ((recorded? d).map (specKey base p, ·)).toList := by
  match d with
  | .error e => rfl
  | .ok none => rfl
  | .ok (some f) =>
    simp only [add, ManifestEntry.ofDocument, recorded?]
    by_cases hf : f.records = []
    · rw [if_pos hf, insert_eq_of_zero m _ (by simp [ManifestEntry.ofRecords, hf])]
      rfl
    · rw [if_neg hf]
      rfl

theorem ofSource_eq_insertAll (now : Time) (expression : Option String) (paths : List String) :
    ofSource now base expression load paths =
      (empty now expression paths.length).insertAll (recordings base load paths) := by
  have hrun : ∀ m : Manifest, (paths.map fun p => (p, load p)).foldl (add base) m =
      m.insertAll (recordings base load paths) := by
    induction paths with
    | nil => exact fun _ => rfl
    | cons p paths ih =>
      intro m
      rw [List.map_cons, List.foldl_cons, add_eq, ih]
      cases h : recorded? (load p) with
      | none => simp [recordings, insertAll, h]
      | some e => simp [recordings, insertAll, h]
  rw [ofSource, ofDocuments, hrun, List.length_map]

theorem recordings_filter (paths : List String) :
    recordings base load (paths.filter fun p => (recorded? (load p)).isSome) =
      recordings base load paths := by
  rw [recordings, List.filterMap_filter]
  apply List.filterMap_congr
  intro p _
  cases h : recorded? (load p) with
  | none => rfl
  | some e => rfl

theorem map_fst_recordings (paths : List String) :
    (recordings base load paths).map (·.1) =
      (paths.filter fun p => (recorded? (load p)).isSome).map (specKey base) := by
  induction paths with
  | nil => rfl
  | cons p paths ih =>
    rw [recordings] at ih ⊢
    cases h : recorded? (load p) with
    | none => simpa [h] using ih
    | some e => simpa [h] using ih

variable {base load}

theorem expectedScenarios_of_recordings {paths : List String} {c : String × ManifestEntry}
    (h : c ∈ recordings base load paths) : c.2.expectedScenarios ≠ 0 := by
  obtain ⟨p, -, hp⟩ := List.mem_filterMap.mp h
  obtain ⟨e, he, rfl⟩ := Option.map_eq_some_iff.mp hp
  exact ManifestEntry.expectedScenarios_of_recorded? he

theorem lastGiven_recordings (paths : List String) (key : String) :
    lastGiven (recordings base load paths) key =
      ((paths.filter fun p => specKey base p = key ∧ (recorded? (load p)).isSome).getLast?).bind
        fun p => recorded? (load p) := by
  induction paths using List.reverseRecOn with
  | nil => rfl
  | append_singleton paths p ih =>
    rw [recordings] at ih ⊢
    cases h : recorded? (load p) with
    | none => simpa [List.filterMap_append, List.filter_append, h] using ih
    | some e =>
      have he := ManifestEntry.expectedScenarios_of_recorded? h
      by_cases hk : specKey base p = key
      · simp [lastGiven, List.filterMap_append, List.filter_append, h, hk, he]
      · simpa [lastGiven, List.filterMap_append, List.filter_append, h, hk] using ih

end

/-- Insertions change nothing but the entries and their total. -/
theorem insertAll_header (m : Manifest) (calls : List (String × ManifestEntry)) :
    m.insertAll calls = { m with
      specs := (m.insertAll calls).specs
      totalScenarios := (m.insertAll calls).totalScenarios } := by
  induction calls using List.reverseRecOn with
  | nil => rfl
  | append_singleton calls c ih =>
    rw [insertAll_append_singleton]
    by_cases he : c.2.expectedScenarios = 0
    · rwa [insert_eq_of_zero _ _ he]
    · rw [ih]
      simp only [insert, if_neg he]

/-- What insertions leave depends on nothing but the entries and their total. -/
theorem insertAll_congr {m n : Manifest} (hs : m.specs = n.specs)
    (ht : m.totalScenarios = n.totalScenarios) (calls : List (String × ManifestEntry)) :
    (m.insertAll calls).specs = (n.insertAll calls).specs ∧
      (m.insertAll calls).totalScenarios = (n.insertAll calls).totalScenarios := by
  induction calls using List.reverseRecOn with
  | nil => exact ⟨hs, ht⟩
  | append_singleton calls c ih =>
    rw [insertAll_append_singleton, insertAll_append_singleton]
    by_cases he : c.2.expectedScenarios = 0
    · rwa [insert_eq_of_zero _ _ he, insert_eq_of_zero _ _ he]
    · simp only [insert, if_neg he, expectedAt, get?, ih, and_self]

section

variable (now : Time) (expression : Option String) (totalSpecs : Nat)
  {calls : List (String × ManifestEntry)}

theorem ascending_insertAll : Ascending ((empty now expression totalSpecs).insertAll calls).specs := by
  induction calls using List.reverseRecOn with
  | nil => exact List.Pairwise.nil
  | append_singleton calls c ih =>
    rw [insertAll_append_singleton]
    by_cases he : c.2.expectedScenarios = 0
    · rwa [insert_eq_of_zero _ _ he]
    · rw [insert_specs he]
      exact ih.putSorted c.1 c.2

/-- Insertions for different paths all stay, and each adds to the total. -/
theorem insertAll_of_nodup (hn : (calls.map (·.1)).Nodup)
    (he : ∀ c ∈ calls, c.2.expectedScenarios ≠ 0) :
    let m := (empty now expression totalSpecs).insertAll calls
    m.specs.Perm calls ∧
      m.totalScenarios = (calls.map (·.2.expectedScenarios)).sum % countLimit := by
  induction calls using List.reverseRecOn with
  | nil => exact ⟨List.Perm.refl _, rfl⟩
  | append_singleton calls c ih =>
    rw [List.map_append] at hn
    obtain ⟨hcalls, -, hdisjoint⟩ := List.nodup_append'.mp hn
    have hc : c.2.expectedScenarios ≠ 0 := he c (by simp)
    obtain ⟨hperm, htotal⟩ := ih hcalls fun d hd => he d (List.mem_append_left _ hd)
    rw [insertAll_append_singleton]
    generalize (empty now expression totalSpecs).insertAll calls = m at hperm htotal ⊢
    have hnew : c.1 ∉ m.specs.map (·.1) := by
      intro hm
      have hm' := (hperm.map _).subset hm
      exact hdisjoint hm' (by simp)
    have hnone : m.expectedAt c.1 = 0 := by
      rw [expectedAt, get?, lookup_eq_none_of_notMem hnew]
      rfl
    constructor
    · rw [insert_specs hc]
      exact (perm_putSorted hnew c.2).trans ((hperm.cons c).trans (List.perm_append_singleton c calls).symm)
    · have htotal' : (m.insert c.1 c.2).1.totalScenarios =
          (m.totalScenarios + countLimit - 0 + c.2.expectedScenarios) % countLimit := by
        simp only [insert, if_neg hc, hnone]
      rw [htotal', htotal, List.map_append, List.sum_append, List.map_singleton, List.sum_singleton,
        Nat.sub_zero, Nat.add_right_comm, Nat.add_mod_right, Nat.mod_add_mod]

end

/-- The feature files of a tree are a source, and reading them leaves the tree as it is. -/
theorem run_ofFiles (now : Time) (base : String) (expression : Option String)
    (paths : List String) (t : FileTree) :
    (ofFiles now base expression paths : StateM FileTree Manifest).run t =
      (ofSource now base expression (fun p => documentOf (t.read p)) paths, t) := by
  have hload : (paths.mapM loadDocument : StateM FileTree _).run t =
      (paths.map fun p => documentOf (t.read p), t) := by
    induction paths with
    | nil => rfl
    | cons p paths ih =>
      have hh := congrArg (fun r => (documentOf (t.read p) :: r.1, r.2)) ih
      rw [List.mapM_cons]
      exact hh
  have hzip : paths.zip (paths.map fun p => documentOf (t.read p)) =
      paths.map fun p => (p, documentOf (t.read p)) :=
    List.map_prod_left_eq_zip.symm
  rw [ofFiles, StateT.run_bind, hload, ofSource, ← hzip]
  rfl

/-- Specs without an entry leave no trace but in the number of specs. Under every key stands the last
spec that has an entry, and where the keys differ the order of the specs does not matter. -/
theorem ofSource_contained (now : Time) (base : String) (expression : Option String)
    (load : String → Except SpecError Gherkin.Document) (paths : List String) :
    let build := fun now paths => ofSource now base expression load paths
    let kept := paths.filter fun p => (recorded? (load p)).isSome
    build now paths = { build now kept with totalSpecs := paths.length } ∧
      (∀ key, (build now paths).get? key =
        ((kept.filter fun p => specKey base p = key).getLast?).bind fun p => recorded? (load p)) ∧
      ∀ later other, paths.Perm other → (paths.map (specKey base)).Nodup →
        build later other = { build now paths with generatedAt := later } := by
  intro build kept
  have hrun : ∀ now paths, build now paths =
      (empty now expression paths.length).insertAll (recordings base load paths) :=
    fun now paths => ofSource_eq_insertAll base load now expression paths
  refine ⟨?_, ?_, ?_⟩
  · obtain ⟨hspecs, htotal⟩ := insertAll_congr (m := empty now expression paths.length)
      (n := empty now expression kept.length) rfl rfl (recordings base load paths)
    rw [hrun, hrun, recordings_filter, insertAll_header, hspecs, htotal,
      insertAll_header (empty now expression kept.length)]
    simp only [empty]
  · intro key
    rw [hrun, get?_insertAll rfl, lastGiven_recordings, List.filter_filter]
    simp only [Bool.decide_and, Bool.decide_eq_true]
  · intro later other hperm hn
    have hcalls : (recordings base load paths).Perm (recordings base load other) :=
      hperm.filterMap _
    have hkeys : ((recordings base load paths).map (·.1)).Nodup := by
      rw [map_fst_recordings]
      exact hn.sublist (List.filter_sublist.map _)
    have hkeys' : ((recordings base load other).map (·.1)).Nodup :=
      (hcalls.map _).nodup hkeys
    obtain ⟨hspecs, htotal⟩ := insertAll_of_nodup now expression paths.length hkeys
      fun c hc => expectedScenarios_of_recordings hc
    obtain ⟨hspecs', htotal'⟩ := insertAll_of_nodup later expression other.length hkeys'
      fun c hc => expectedScenarios_of_recordings hc
    have hsame := (ascending_insertAll later expression other.length).eq_of_perm
      (ascending_insertAll now expression paths.length)
      (hspecs'.trans (hcalls.symm.trans hspecs.symm))
    rw [← (hcalls.map _).sum_eq, ← htotal] at htotal'
    rw [hrun, hrun, insertAll_header (empty later expression other.length), hsame, htotal',
      insertAll_header (empty now expression paths.length), ← hperm.length_eq]
    simp only [empty]

theorem ofSource_contained_mixed :
    let doc := fun (name : String) (n : Nat) =>
      (some ⟨{ name := name }, List.replicate n (.scenario ⟨{ name := "s" }, []⟩)⟩ :
        Gherkin.Document)
    let load := fun (p : String) => match p with
      | "/w/a" => .ok (doc "A" 1)
      | "a" => .ok (doc "B" 2)
      | "c" => .ok (doc "C" 3)
      | "empty" => .ok (doc "D" 0)
      | "bare" => .ok none
      | _ => .error .invalid
    let build := fun now paths => ofSource now "/w" none load paths
    build (.ofEpoch 0 0) ["/w/a", "bare", "a", "empty", "x", "c"] =
        { build (.ofEpoch 0 0) ["/w/a", "a", "c"] with totalSpecs := 6 } ∧
      (["c", "x", "/w/a"].map (specKey "/w")).Nodup ∧
      build (.ofEpoch 9 0) ["/w/a", "c", "x"] =
        { build (.ofEpoch 0 0) ["c", "x", "/w/a"] with generatedAt := .ofEpoch 9 0 } := by
  intro doc load build
  have hn : (["c", "x", "/w/a"].map (specKey "/w")).Nodup := by decide
  obtain ⟨hkept, -, -⟩ := ofSource_contained (.ofEpoch 0 0) "/w" none load
    ["/w/a", "bare", "a", "empty", "x", "c"]
  obtain ⟨-, -, hperm⟩ := ofSource_contained (.ofEpoch 0 0) "/w" none load ["c", "x", "/w/a"]
  exact ⟨hkept, hn, hperm (.ofEpoch 9 0) ["/w/a", "c", "x"] (by decide) hn⟩

end Manifest

end SuitePlan
