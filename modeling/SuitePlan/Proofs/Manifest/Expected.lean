import Mathlib.Algebra.GroupWithZero.Nat
import Mathlib.Data.List.Induction
import SuitePlan.Gherkin.Grammar
import SuitePlan.Manifest.Assembly
import SuitePlan.Proofs.Distinct

/-! The scenarios of a feature, wherever rules put them, and what each of them adds to the records. A
scenario inherits through all rules around it, so its tags are found on the way from the feature to it. -/

namespace SuitePlan

theorem unionTags_append (tags more others : List Tag) :
    unionTags tags (more ++ others) = unionTags (unionTags tags more) others :=
  List.foldl_append

/-- What is added is what was not there, each tag at its first place. -/
theorem unionTags_eq (tags more : List Tag) :
    unionTags tags more = tags ++ (more.filter (· ∉ tags)).eraseDups := by
  induction more using List.reverseRecOn with
  | nil => exact (List.append_nil tags).symm
  | append_singleton more t ih =>
    rw [unionTags_append, ih, List.filter_append, List.filter_singleton]
    show (if t ∈ _ then _ else _ ++ [t]) = _
    by_cases ht : t ∈ tags
    · simp [ht]
    · have hnew : t ∈ tags ++ (more.filter (· ∉ tags)).eraseDups ↔ t ∈ more.filter (· ∉ tags) := by
        rw [List.mem_append, List.mem_eraseDups, or_iff_right ht]
      rw [decide_eq_true ht, cond_true, eraseDups_append_singleton]
      by_cases hm : t ∈ more.filter (· ∉ tags)
      · rw [if_pos (hnew.mpr hm), if_pos hm]
      · rw [if_neg (mt hnew.mp hm), if_neg hm, List.append_assoc]

theorem nodup_unionTags_iff (tags more : List Tag) : (unionTags tags more).Nodup ↔ tags.Nodup := by
  rw [unionTags_eq]
  refine ⟨List.Nodup.of_append_left, fun h => List.nodup_append'.mpr ⟨h, nodup_eraseDups _, ?_⟩⟩
  intro t ht hmore
  have hf := List.mem_eraseDups.mp hmore
  simp [ht] at hf

theorem unionTags_of_nodup {tags : List Tag} (h : tags.Nodup) (more : List Tag) :
    unionTags tags more = (tags ++ more).eraseDups := by
  have hnew : more.removeAll tags = more.filter (· ∉ tags) := by simp [List.removeAll]
  rw [unionTags_eq, List.eraseDups_append, eraseDups_of_nodup h, hnew]

namespace Gherkin

/-- A scenario with the rules around it, from outside in. -/
structure Placed where
  rules : List Heading
  scenario : Scenario

namespace Placed

def within (h : Heading) (p : Placed) : Placed := ⟨h :: p.rules, p.scenario⟩

/-- The tags of the rules and of the scenario, as they stand. -/
def tags (p : Placed) : List Tag := p.rules.flatMap (·.tags) ++ p.scenario.heading.tags

end Placed

mutual

/-- The scenarios in a part of a document, in its order. -/
def Child.placed : Child → List Placed
  | .scenario s => [⟨[], s⟩]
  | .rule h children => (placedIn children).map (·.within h)

def placedIn : List Child → List Placed
  | [] => []
  | c :: cs => c.placed ++ placedIn cs

end

def Feature.placed (f : Feature) : List Placed := placedIn f.children

/-- The records of a scenario that stands in rules. -/
def Placed.records (inherited : List Tag) (p : Placed) : List ExpectedScenario :=
  p.scenario.records (unionTags inherited (p.rules.flatMap (·.tags)))

theorem Placed.records_within (inherited : List Tag) (h : Heading) (p : Placed) :
    (p.within h).records inherited = p.records (unionTags inherited h.tags) := by
  rw [Placed.records, Placed.within, List.flatMap_cons, unionTags_append, Placed.records]

mutual

theorem Child.records_eq (inherited : List Tag) :
    ∀ c : Child, c.records inherited = c.placed.flatMap (·.records inherited)
  | .scenario s => by
    rw [Child.records, Child.placed, List.flatMap_singleton]
    rfl
  | .rule h children => by
    rw [Child.records, Child.placed, recordsOfAll_eq (unionTags inherited h.tags) children,
      List.flatMap_map]
    exact List.flatMap_congr fun p _ => (p.records_within inherited h).symm

theorem recordsOfAll_eq (inherited : List Tag) :
    ∀ cs : List Child, recordsOfAll inherited cs = (placedIn cs).flatMap (·.records inherited)
  | [] => rfl
  | c :: cs => by
    rw [recordsOfAll, placedIn, Child.records_eq inherited c, recordsOfAll_eq inherited cs,
      List.flatMap_append]

end

theorem Feature.records_eq (f : Feature) :
    f.records = f.placed.flatMap (·.records f.heading.tags) :=
  recordsOfAll_eq f.heading.tags f.children

/-- How often a scenario is run: once, or once for every row if there are tables. -/
def Scenario.timesRun (s : Scenario) : Nat :=
  if s.examples = [] then 1 else (s.examples.map (·.rows)).sum

theorem Scenario.records_concrete {s : Scenario} (h : s.examples = []) (inherited : List Tag) :
    s.records inherited =
      [⟨s.heading.name, s.heading.line, unionTags inherited s.heading.tags, false⟩] := by
  rw [records, isOutline, h]
  rfl

theorem Scenario.records_outline {s : Scenario} (h : s.examples ≠ []) (inherited : List Tag) :
    s.records inherited = (List.range (s.examples.map (·.rows)).sum).map fun i =>
      ⟨exampleName s.heading.name (i + 1), s.heading.line, unionTags inherited s.heading.tags,
        true⟩ := by
  have houtline : s.isOutline = true := by simpa [isOutline] using h
  rw [records, houtline, if_pos rfl, exampleRows, List.sum_eq_foldr, List.foldr_map]

theorem Scenario.map_tags_records (s : Scenario) (inherited : List Tag) :
    (s.records inherited).map (·.tags) =
      List.replicate s.timesRun (unionTags inherited s.heading.tags) := by
  rw [timesRun]
  by_cases h : s.examples = []
  · rw [if_pos h, records_concrete h]
    rfl
  · rw [if_neg h, records_outline h, List.map_map, List.eq_replicate_iff]
    simp

theorem Placed.map_tags_records (p : Placed) (inherited : List Tag) :
    (p.records inherited).map (·.tags) =
      List.replicate p.scenario.timesRun (unionTags inherited p.tags) := by
  rw [Placed.records, Scenario.map_tags_records, ← unionTags_append, Placed.tags]

theorem Feature.map_tags_records (f : Feature) :
    f.records.map (·.tags) = f.placed.flatMap fun p =>
      List.replicate p.scenario.timesRun (unionTags f.heading.tags p.tags) := by
  rw [f.records_eq, List.map_flatMap]
  exact List.flatMap_congr fun p _ => p.map_tags_records f.heading.tags

/-- Every record has the tags of the feature as they stand, and behind them each other tag of the rules
around the scenario and of the scenario itself at its first place. So all tags are there once, each at
its first place, unless the feature repeats one of its own. -/
theorem Feature.tags_of_records (f : Feature) :
    f.records.map (·.tags) = f.placed.flatMap (fun p => List.replicate p.scenario.timesRun
        (f.heading.tags ++ (p.tags.filter (· ∉ f.heading.tags)).eraseDups)) ∧
      (∀ r ∈ f.records, r.tags.Nodup ↔ f.heading.tags.Nodup) ∧
      (f.heading.tags.Nodup → f.records.map (·.tags) = f.placed.flatMap fun p =>
        List.replicate p.scenario.timesRun (f.heading.tags ++ p.tags).eraseDups) := by
  have htags := f.map_tags_records
  refine ⟨?_, fun r hr => ?_, fun h => ?_⟩
  · simpa only [unionTags_eq] using htags
  · have hr : r.tags ∈ f.records.map (·.tags) := List.mem_map_of_mem hr
    rw [htags] at hr
    obtain ⟨p, -, hp⟩ := List.mem_flatMap.mp hr
    rw [List.eq_of_mem_replicate hp, nodup_unionTags_iff]
  · simpa only [unionTags_of_nodup h] using htags

theorem Feature.tags_of_records_nested :
    let outer := ⟨"outer", ["@R", "@F", "@R"], 2⟩
    let inner := ⟨"inner", ["@S", "@R"], 3⟩
    let s : Scenario := ⟨⟨"s", ["@T", "@S"], 4⟩, [⟨[], 6, 2⟩, ⟨[], 9, 0⟩]⟩
    let f : Feature := ⟨⟨"F", ["@F", "@G"], 1⟩, [.rule outer [.rule inner [.scenario s]]]⟩
    f.heading.tags.Nodup ∧
      f.records.map (·.tags) = List.replicate 2 ["@F", "@G", "@R", "@S", "@T"] := by
  intro outer inner s f
  obtain ⟨-, -, hdistinct⟩ := f.tags_of_records
  have hf : f.heading.tags.Nodup := by decide
  exact ⟨hf, (hdistinct hf).trans (by decide)⟩

/-- A tag that the feature repeats is repeated in the records. -/
theorem Feature.tags_of_records_repeated :
    ∃ f, Gherkin.parse? "@A @A\nFeature: F\n  Scenario: s\n    Given x\n" = some (some f) ∧
      ∃ r ∈ f.records, r.tags = ["@A", "@A"] ∧ ¬ r.tags.Nodup := by
  have hrecords : (Gherkin.parse? "@A @A\nFeature: F\n  Scenario: s\n    Given x\n").map
      (·.map (·.records)) = some (some [⟨"s", 3, ["@A", "@A"], false⟩]) := by decide +kernel
  obtain ⟨d, hd, hmap⟩ := Option.map_eq_some_iff.mp hrecords
  obtain ⟨f, rfl, hf⟩ := Option.map_eq_some_iff.mp hmap
  exact ⟨f, hd, _, hf ▸ List.mem_singleton_self _, rfl, by decide⟩

/-- What a scenario adds to the records under some tags. Without tables it runs under its own name. With
tables it runs for each row, and the rows are numbered through all tables. -/
inductive Scenario.Runs (s : Scenario) (tags : List Tag) : List ExpectedScenario → Prop
  | concrete (h : s.examples = []) : s.Runs tags [⟨s.heading.name, s.heading.line, tags, false⟩]
  | outline {rs : List ExpectedScenario} (h : s.examples ≠ [])
      (hrows : rs.length = (s.examples.map (·.rows)).sum)
      (hrow : ∀ i (hi : i < rs.length), rs[i] =
        ⟨s.heading.name ++ " (example #" ++ toString (i + 1) ++ ")", s.heading.line, tags, true⟩) :
      s.Runs tags rs

theorem Scenario.runs_records (s : Scenario) (inherited : List Tag) :
    s.Runs (unionTags inherited s.heading.tags) (s.records inherited) := by
  by_cases h : s.examples = []
  · rw [records_concrete h]
    exact .concrete h
  · rw [records_outline h]
    exact .outline h (by simp) fun i hi => by simp [exampleName]

theorem Scenario.Runs.length_eq {s : Scenario} {tags : List Tag} {rs : List ExpectedScenario}
    (h : s.Runs tags rs) : rs.length = s.timesRun := by
  cases h with
  | concrete h => rw [timesRun, if_pos h, List.length_singleton]
  | outline h hrows => rw [timesRun, if_neg h, hrows]

end Gherkin

open Gherkin

/-- The records of a feature are those of its scenarios one after another, and the scenarios expected
are as many as all of them are run. -/
theorem ManifestEntry.records_in_order (f : Feature) :
    ∃ (e : ManifestEntry) (groups : List (List ExpectedScenario)),
      ofDocument (.ok (some f)) = .ok e ∧ e.featureName = f.heading.name ∧
      e.scenarios = groups.flatten ∧
      List.Forall₂ (fun p rs => ∃ tags, p.scenario.Runs tags rs) f.placed groups ∧
      e.expectedScenarios = (f.placed.map (·.scenario.timesRun)).sum := by
  refine ⟨_, f.placed.map (·.records f.heading.tags), rfl, rfl, ?_, ?_, ?_⟩
  · exact f.records_eq
  · exact List.forall₂_map_right_iff.mpr
      (List.forall₂_same.mpr fun p _ => ⟨_, p.scenario.runs_records _⟩)
  · show f.records.length = _
    rw [f.records_eq, List.length_flatMap]
    exact congrArg List.sum (List.map_congr_left fun p _ => (p.scenario.runs_records _).length_eq)

example :
    let s : Scenario := ⟨⟨"s", [], 2⟩, [⟨[], 3, 1⟩, ⟨[], 5, 0⟩, ⟨[], 6, 1⟩]⟩
    (s.records []).map (·.name) = ["s (example #1)", "s (example #2)"] := by
  decide

end SuitePlan
