import SuitePlan.Proofs.Manifest.Recordings
import SuitePlan.Proofs.Path.Relative

/-! Which specs share a key in a manifest. Specs below the base directory have different keys, and so
have specs outside of it; but a path outside can read like what is left of one below. -/

namespace SuitePlan

open ManifestEntry (recorded?)

theorem toList_specKey (base path : String) :
    (specKey base path).toList = Path.relativeTo base.toList path.toList := by
  rw [specKey, String.toList_ofList]

theorem specKey_of_not_below {base path : String} (h : ¬ Path.Below base.toList path.toList) :
    specKey base path = path := by
  rw [specKey, Path.relativeTo_of_not_below h, String.ofList_toList]

theorem components_eq_of_specKey {base p q : String}
    (hpq : Path.Below base.toList p.toList ↔ Path.Below base.toList q.toList)
    (h : specKey base p = specKey base q) :
    Path.components p.toList = Path.components q.toList := by
  by_cases hp : Path.Below base.toList p.toList
  · have hrel : Path.relativeTo base.toList p.toList = Path.relativeTo base.toList q.toList := by
      rw [← toList_specKey, ← toList_specKey, h]
    exact Path.components_eq_of_relativeTo hp (hpq.mp hp) hrel
  · rw [specKey_of_not_below hp, specKey_of_not_below (mt hpq.mpr hp)] at h
    rw [h]

namespace Manifest

/-- A path below the base and one outside of it that is spelled like what is left of the first. -/
def Clash (base p q : String) : Prop :=
  Path.Below base.toList p.toList ∧ ¬ Path.Below base.toList q.toList ∧ specKey base p = q

instance (base p q : String) : Decidable (Clash base p q) :=
  inferInstanceAs (Decidable (_ ∧ ¬ _ ∧ _))

/-- Paths with different components have different keys unless they clash. -/
theorem nodup_specKey_iff {base : String} {paths : List String}
    (hdistinct : paths.Pairwise fun p q => Path.components p.toList ≠ Path.components q.toList) :
    (paths.map (specKey base)).Nodup ↔ ∀ p ∈ paths, ∀ q ∈ paths, ¬ Clash base p q := by
  constructor
  · rintro hn p hp q hq ⟨hbelow, hout, hkey⟩
    have hsame : specKey base p = specKey base q := hkey.trans (specKey_of_not_below hout).symm
    have hpq : p = q := List.inj_on_of_nodup_map hn hp hq hsame
    exact hout (hpq ▸ hbelow)
  · intro hfree
    have hne : paths.Pairwise fun p q => specKey base p ≠ specKey base q := by
      refine hdistinct.imp_of_mem ?_
      intro p q hp hq hcomponents hkey
      apply hcomponents
      refine components_eq_of_specKey ⟨?_, ?_⟩ hkey
      · intro hb
        by_contra hout
        exact hfree p hp q hq ⟨hb, hout, hkey.trans (specKey_of_not_below hout)⟩
      · intro hb
        by_contra hout
        exact hfree q hq p hp ⟨hb, hout, hkey.symm.trans (specKey_of_not_below hout)⟩
    exact List.pairwise_map.mpr hne

/-- A manifest of specs with different components has an entry for each spec that expects scenarios,
and counts them all, exactly when no two such specs clash. -/
theorem ofSource_complete_iff (now : Time) (base : String) (expression : Option String)
    (load : String → Except SpecError Gherkin.Document) {paths : List String}
    (hdistinct : paths.Pairwise fun p q => Path.components p.toList ≠ Path.components q.toList) :
    let m := ofSource now base expression load paths
    let kept := paths.filter fun p => (recorded? (load p)).isSome
    let entries := kept.filterMap fun p => (recorded? (load p)).map (specKey base p, ·)
    (m.specs.Perm entries ∧
      m.totalScenarios = (entries.map (·.2.expectedScenarios)).sum % countLimit) ↔
      ∀ p ∈ kept, ∀ q ∈ kept, ¬ Clash base p q := by
  intro m kept entries
  have hentries : entries = recordings base load paths := recordings_filter base load paths
  have hm : m = (empty now expression paths.length).insertAll entries := by
    rw [hentries]
    exact ofSource_eq_insertAll base load now expression paths
  have hkeys : entries.map (·.1) = kept.map (specKey base) := by
    rw [hentries]
    exact map_fst_recordings base load paths
  rw [← nodup_specKey_iff (hdistinct.sublist List.filter_sublist), ← hkeys]
  constructor
  · rintro ⟨hperm, -⟩
    rw [hm] at hperm
    exact (hperm.map _).nodup (ascending_insertAll now expression paths.length).nodup
  · intro hn
    rw [hm]
    exact insertAll_of_nodup now expression paths.length hn fun c hc => expectedScenarios_of_recordings hc

theorem ofSource_complete_iff_nested :
    let load := fun (p : String) => if p = "x" then .error .invalid else
      .ok (some ⟨{ name := p }, [.scenario ⟨{ name := "s" }, []⟩]⟩ : Gherkin.Document)
    let paths := ["./w//x", "/w/x", "x", "./w/./w/x/", "b"]
    let m := ofSource (.ofEpoch 0 0) "./w/" none load paths
    (paths.Pairwise fun p q => Path.components p.toList ≠ Path.components q.toList) ∧
      (m.specs.map (·.1)).Perm ["x", "/w/x", "w/x", "b"] ∧ m.totalScenarios = 4 := by
  intro load paths m
  have hdistinct : paths.Pairwise fun p q =>
      Path.components p.toList ≠ Path.components q.toList := by decide
  obtain ⟨hperm, htotal⟩ :=
    (ofSource_complete_iff (.ofEpoch 0 0) "./w/" none load hdistinct).mpr (by decide)
  exact ⟨hdistinct, hperm.map _, htotal⟩

/-- A spec below the base and one outside of it are recorded under the key that both of them have, so
only one of the two is counted. -/
theorem ofSource_shared_key :
    let feature : Gherkin.Feature :=
      ⟨{ name := "A", line := 1 }, [.scenario ⟨{ name := "s", line := 2 }, []⟩]⟩
    let paths := ["/specs/x.feature", "x.feature"]
    let m := ofSource (.ofEpoch 0 0) "/specs" none (fun _ => .ok (some feature)) paths
    (paths.Pairwise fun p q => Path.components p.toList ≠ Path.components q.toList) ∧
      m.specs.length = 1 ∧ m.totalScenarios = 1 ∧
      (paths.map fun _ => feature.records.length).sum = 2 := by
  decide

end Manifest

end SuitePlan
