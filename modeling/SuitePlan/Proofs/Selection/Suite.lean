import SuitePlan.Plan.Choice
import SuitePlan.Proofs.Selection.Filtering

/-! Filtering a suite. Feature files that match stand before all other files, a second filtering
changes nothing, and only features that all fail to match can leave nothing to run. -/

namespace SuitePlan

open KnownTags

namespace KnownTags

/-- The first of some paths that has the components of a path. -/
def firstSame (paths : List String) (path : String) : String :=
  (paths.find? (Path.same · path)).getD path

/-- The tags of one of some paths that are asked for together: those that are known, or else those in
the file that the first path with its components leads to. -/
def tagsAmong (t : FileTree) (k : KnownTags) (paths : List String) (path : String) : List Tag :=
  (k.find? path).getD (tagsOfRead (t.read (firstSame paths path)))

variable {t : FileTree} {k : KnownTags}

theorem find?_same {p q : String} (h : Path.same q p) : k.find? q = k.find? p := by
  simp only [find?, eq_of_beq h]

theorem find?_learn_or (p q : String) :
    (learn t k q).find? p =
      (k.find? p).or (if Path.same q p then some (tagsOfRead (t.read q)) else none) := by
  by_cases hs : Path.same q p
  · have hcomponents : Path.components p.toList = Path.components q.toList := (eq_of_beq hs).symm
    have hfind : k.find? q = k.find? p := find?_same hs
    rw [if_pos hs, learn, hfind]
    cases hp : k.find? p with
    | some tags => simp [hp]
    | none => simp [find?_insert, hcomponents]
  · have hcomponents : Path.components p.toList ≠ Path.components q.toList := by
      intro he
      exact hs (beq_iff_eq.mpr he.symm)
    rw [if_neg hs, Option.or_none, learn]
    split
    · rfl
    · rw [find?_insert, if_neg hcomponents]

/-- What is known of a path after some requests comes from before or from the first request for it. -/
theorem find?_learnAll_or (paths : List String) (p : String) :
    (learnAll t k paths).find? p =
      (k.find? p).or ((paths.find? (Path.same · p)).map fun q => tagsOfRead (t.read q)) := by
  induction paths generalizing k with
  | nil => simp [learnAll]
  | cons q paths ih =>
    have hall : learnAll t k (q :: paths) = learnAll t (learn t k q) paths := rfl
    rw [hall, ih, find?_learn_or, Option.or_assoc, List.find?_cons]
    cases Path.same q p with
    | true => simp
    | false => simp

theorem exists_find?_same {paths : List String} {p : String} (hp : p ∈ paths) :
    ∃ q, paths.find? (Path.same · p) = some q := by
  have hself : Path.same p p := beq_self_eq_true _
  exact Option.isSome_iff_exists.mp (List.find?_isSome.mpr ⟨p, hp, hself⟩)

theorem tagsIn_learnAll_eq {paths : List String} {p : String} (hp : p ∈ paths) :
    tagsIn t (learnAll t k paths) p = tagsAmong t k paths p := by
  obtain ⟨q, hq⟩ := exists_find?_same hp
  rw [tagsIn, find?_learnAll_or, tagsAmong, firstSame, hq]
  cases k.find? p with
  | none => rfl
  | some tags => rfl

/-- Paths with the same components have the same tags. -/
theorem tagsAmong_same {paths : List String} {p q : String} (hp : p ∈ paths)
    (h : Path.same q p) : tagsAmong t k paths q = tagsAmong t k paths p := by
  have hiff : (Path.same · q) = (Path.same · p) := by
    funext a
    simp only [Path.same, eq_of_beq h]
  obtain ⟨a, ha⟩ := exists_find?_same hp
  rw [tagsAmong, tagsAmong, find?_same h, firstSame, firstSame, hiff, ha, Option.getD_some,
    Option.getD_some]

/-- Nothing but the file of a path decides its tags when paths with the same components lead to the
same file. -/
theorem tagsAmong_of_read_eq {paths : List String} {p : String} (hp : p ∈ paths)
    (h : ∀ q ∈ paths, Path.same q p → t.read q = t.read p) :
    tagsAmong t {} paths p = tagsOfRead (t.read p) := by
  obtain ⟨q, hq⟩ := exists_find?_same hp
  have hsame : Path.same q p := List.find?_some (p := (Path.same · p)) hq
  rw [tagsAmong, firstSame, hq, Option.getD_some, h q (List.mem_of_find?_eq_some hq) hsame]
  rfl

/-- What is kept for its tags has the same tags among what is kept. -/
theorem tagsAmong_filter (matching : List Tag → Bool) {paths : List String} {p : String}
    (hp : p ∈ paths.filter fun p => matching (tagsAmong t k paths p)) :
    tagsAmong t k (paths.filter fun p => matching (tagsAmong t k paths p)) p =
      tagsAmong t k paths p := by
  obtain ⟨hmem, hmatch⟩ := List.mem_filter.mp hp
  have hfirst : firstSame (paths.filter fun p => matching (tagsAmong t k paths p)) p =
      firstSame paths p := by
    -- The first path with the same components has the same tags, so it is kept as well.
    have hsearch : (fun q => decide (matching (tagsAmong t k paths q) ∧ Path.same q p)) =
        (Path.same · p) := by
      funext q
      cases hq : Path.same q p with
      | true => simpa [tagsAmong_same hmem hq] using hmatch
      | false => simp
    rw [firstSame, List.find?_filter, hsearch, firstSame]
  rw [tagsAmong, hfirst, tagsAmong]

/-- Tags that have been asked for stay what they are. -/
theorem tagsAmong_learnAll {paths : List String} {p : String} (hp : p ∈ paths)
    (kept : List String) :
    tagsAmong t (learnAll t k paths) kept p = tagsAmong t k paths p := by
  obtain ⟨tags, htags⟩ := exists_find?_learnAll (t := t) (k := k) hp
  rw [← tagsIn_learnAll_eq hp, tagsAmong, tagsIn, htags, Option.getD_some, Option.getD_some]

end KnownTags

/-- Why an expression is refused: it is not blank, and the grammar has no place for it. -/
def Refused (g : Grammar) (s : String) (err : TagExprError) : Prop :=
  isBlankText s = false ∧ g.parse s = .error err

/-- Whether tags satisfy an expression. A refused one is satisfied by none. -/
def selects (g : Grammar) (s : String) (tags : List Tag) : Bool :=
  match satisfies g s tags with
  | .ok b => b
  | .error _ => false

section

variable {g : Grammar} {s : String}

theorem selects_of_blank (h : isBlankText s) (tags : List Tag) : selects g s tags := by
  rw [selects, satisfies, if_pos h]

theorem selects_of_parse {r : Option TagExpr} (hs : isBlankText s = false) (h : g.parse s = .ok r)
    (tags : List Tag) : selects g s tags = holds r tags := by
  simp only [selects, satisfies, hs, Bool.false_eq_true, if_false, h, Except.map]

theorem blank_or_parse_cases (g : Grammar) (s : String) :
    isBlankText s ∨ (∃ r, isBlankText s = false ∧ g.parse s = .ok r) ∨ ∃ err, Refused g s err := by
  cases hs : isBlankText s with
  | true => exact .inl rfl
  | false =>
    cases h : g.parse s with
    | ok r => exact .inr (.inl ⟨r, rfl, rfl⟩)
    | error err => exact .inr (.inr ⟨err, hs, h⟩)

theorem selectPaths_of_refused {err : TagExprError} (h : Refused g s err)
    (x : String × List Tag) (specs : List (String × List Tag)) :
    selectPaths g s (x :: specs) = .error err := by
  have hsat : satisfies g s x.2 = .error err := by simp [satisfies, h.1, h.2, Except.map]
  simp only [selectPaths, List.filterM, List.filterAuxM, hsat]
  rfl

variable (k : KnownTags) (t : FileTree)

theorem outcome_selectFiles_of_refused {err : TagExprError} (h : Refused g s err)
    {paths : List String} (hne : paths ≠ []) :
    outcome (selectFiles g s paths) k t = ((.error err, learnAll t k paths), t) := by
  obtain ⟨p, rest, rfl⟩ := List.exists_cons_of_ne_nil hne
  simp only [selectFiles, selectFilesWith, h.1, Bool.false_eq_true, if_false, outcome_bind,
    outcome_readAllTags, outcome_pure, List.map_cons, List.zip_cons_cons, selectPaths_of_refused h]

theorem outcome_selectFiles_of_not_refused (h : ∀ err, ¬ Refused g s err) (paths : List String) :
    outcome (selectFiles g s paths) k t =
      ((.ok (paths.filter fun p => selects g s (tagsAmong t k paths p)),
        if isBlankText s then k else learnAll t k paths), t) := by
  rcases blank_or_parse_cases g s with hs | ⟨r, hs, hr⟩ | ⟨err, he⟩
  · have hall : paths.filter (fun p => selects g s (tagsAmong t k paths p)) = paths :=
      List.filter_eq_self.mpr fun p _ => selects_of_blank hs _
    rw [selectFiles, selectFilesWith, if_pos hs, if_pos hs, hall, outcome_pure]
  · have hfilter : paths.filter (fun p => holds r (tagsIn t (learnAll t k paths) p)) =
        paths.filter fun p => selects g s (tagsAmong t k paths p) := by
      apply List.filter_congr
      intro p hp
      rw [selects_of_parse hs hr, tagsIn_learnAll_eq hp]
    rw [outcome_selectFiles hs hr, hfilter, hs]
    rfl
  · exact absurd he (h err)

/-- The feature files of a suite that satisfy an expression, in their order. -/
def matchingFeatures (g : Grammar) (s : String) (paths : List String) (k : KnownTags)
    (t : FileTree) : List String :=
  (paths.filter namesFeature).filter fun p =>
    selects g s (tagsAmong t k (paths.filter namesFeature) p)

variable {paths : List String}

theorem outcome_selectSuite_of_no_feature (h : paths.filter namesFeature = []) :
    outcome (selectSuite g s paths) k t = ((.ok paths, k), t) := by
  rw [selectSuite_eq, h]
  rfl

theorem outcome_selectSuite_of_refused {err : TagExprError} (h : Refused g s err)
    (hne : paths.filter namesFeature ≠ []) :
    outcome (selectSuite g s paths) k t =
      ((.error err, learnAll t k (paths.filter namesFeature)), t) := by
  simp only [selectSuite_eq, List.isEmpty_eq_false_iff.mpr hne, Bool.false_eq_true, if_false,
    outcome_bind, outcome_selectFiles_of_refused k t h hne, outcome_pure]
  rfl

theorem outcome_selectSuite_of_not_refused (h : ∀ err, ¬ Refused g s err)
    (hne : paths.filter namesFeature ≠ []) :
    outcome (selectSuite g s paths) k t =
      ((.ok (matchingFeatures g s paths k t ++ paths.filter (!namesFeature ·)),
        if isBlankText s then k else learnAll t k (paths.filter namesFeature)), t) := by
  simp only [selectSuite_eq, List.isEmpty_eq_false_iff.mpr hne, Bool.false_eq_true, if_false,
    outcome_bind, outcome_selectFiles_of_not_refused k t h, outcome_pure]
  rfl

/-- All that filtering a suite can do. -/
theorem selectSuite_cases (g : Grammar) (s : String) (paths : List String) :
    (paths.filter namesFeature = [] ∧
      outcome (selectSuite g s paths) k t = ((.ok paths, k), t)) ∨
    (paths.filter namesFeature ≠ [] ∧ ∃ err, Refused g s err ∧
      outcome (selectSuite g s paths) k t =
        ((.error err, learnAll t k (paths.filter namesFeature)), t)) ∨
    (paths.filter namesFeature ≠ [] ∧ (∀ err, ¬ Refused g s err) ∧
      outcome (selectSuite g s paths) k t =
        ((.ok (matchingFeatures g s paths k t ++ paths.filter (!namesFeature ·)),
          if isBlankText s then k else learnAll t k (paths.filter namesFeature)), t)) := by
  by_cases hnone : paths.filter namesFeature = []
  · exact .inl ⟨hnone, outcome_selectSuite_of_no_feature k t hnone⟩
  · by_cases hr : ∃ err, Refused g s err
    · obtain ⟨err, hr⟩ := hr
      exact .inr (.inl ⟨hnone, err, hr, outcome_selectSuite_of_refused k t hr hnone⟩)
    · have hr' : ∀ err, ¬ Refused g s err := fun err he => hr ⟨err, he⟩
      exact .inr (.inr ⟨hnone, hr', outcome_selectSuite_of_not_refused k t hr' hnone⟩)

/-- The feature files of a filtered suite are those that matched. -/
theorem filter_namesFeature_kept (g : Grammar) (s : String) (paths : List String) (k : KnownTags)
    (t : FileTree) :
    let kept := matchingFeatures g s paths k t ++ paths.filter (!namesFeature ·)
    kept.filter namesFeature = matchingFeatures g s paths k t ∧
      kept.filter (!namesFeature ·) = paths.filter (!namesFeature ·) := by
  intro kept
  have hfeature : ∀ p ∈ matchingFeatures g s paths k t, namesFeature p := fun p hp =>
    (List.mem_filter.mp (List.mem_filter.mp hp).1).2
  have hother : ∀ p ∈ paths.filter (!namesFeature ·), (!namesFeature p) = true := fun p hp =>
    (List.mem_filter.mp hp).2
  constructor
  · have hnone : (paths.filter (!namesFeature ·)).filter namesFeature = [] :=
      List.filter_eq_nil_iff.mpr fun p hp => by simpa using hother p hp
    rw [List.filter_append, List.filter_eq_self.mpr hfeature, hnone, List.append_nil]
  · have hnone : (matchingFeatures g s paths k t).filter (!namesFeature ·) = [] :=
      List.filter_eq_nil_iff.mpr fun p hp => by simpa using hfeature p hp
    rw [List.filter_append, List.filter_eq_self.mpr hother, hnone, List.nil_append]

/-- A filtered suite is filtered to itself when its features have the tags that they had before. -/
theorem outcome_selectSuite_again (h : ∀ err, ¬ Refused g s err) {l : KnownTags}
    (htags : ∀ p ∈ matchingFeatures g s paths k t,
      tagsAmong t l (matchingFeatures g s paths k t) p =
        tagsAmong t k (paths.filter namesFeature) p) :
    let kept := matchingFeatures g s paths k t ++ paths.filter (!namesFeature ·)
    outcome (selectSuite g s kept) l t =
      ((.ok kept, if isBlankText s then l else learnAll t l (matchingFeatures g s paths k t)), t) := by
  intro kept
  obtain ⟨hfeatures, hothers⟩ := filter_namesFeature_kept g s paths k t
  -- Where no feature file is left, the second filtering does not get to the expression.
  by_cases hnone : matchingFeatures g s paths k t = []
  · have hl : learnAll t l (matchingFeatures g s paths k t) = l := by
      rw [hnone]
      rfl
    rw [outcome_selectSuite_of_no_feature l t (hfeatures.trans hnone), hl, ite_self]
  · have hsame : matchingFeatures g s kept l t = matchingFeatures g s paths k t := by
      rw [matchingFeatures, hfeatures]
      apply List.filter_eq_self.mpr
      intro p hp
      rw [htags p hp]
      exact (List.mem_filter.mp hp).2
    rw [outcome_selectSuite_of_not_refused l t h (by rwa [hfeatures]), hsame, hothers, hfeatures]

theorem selectSuite_files : (outcome (selectSuite g s paths) k t).2 = t := by
  rcases selectSuite_cases k t g s paths with ⟨-, h⟩ | ⟨-, err, -, h⟩ | ⟨-, -, h⟩
  · rw [h]
  · rw [h]
  · rw [h]

theorem selectSuite_eq_error_iff (err : TagExprError) :
    (outcome (selectSuite g s paths) k t).1.1 = .error err ↔
      paths.filter namesFeature ≠ [] ∧ Refused g s err := by
  constructor
  · intro he
    rcases selectSuite_cases k t g s paths with ⟨-, h⟩ | ⟨hne, err', hr, h⟩ | ⟨-, -, h⟩
    · rw [h] at he
      cases he
    · rw [h] at he
      cases he
      exact ⟨hne, hr⟩
    · rw [h] at he
      cases he
  · rintro ⟨hne, hr⟩
    rw [outcome_selectSuite_of_refused k t hr hne]

theorem selectSuite_kept {kept : List String}
    (hk : (outcome (selectSuite g s paths) k t).1.1 = .ok kept) :
    kept = if paths.filter namesFeature = [] then paths
      else matchingFeatures g s paths k t ++ paths.filter (!namesFeature ·) := by
  rcases selectSuite_cases k t g s paths with ⟨hnone, h⟩ | ⟨-, err, -, h⟩ | ⟨hne, -, h⟩
  · rw [h] at hk
    cases hk
    rw [if_pos hnone]
  · rw [h] at hk
    cases hk
  · rw [h] at hk
    cases hk
    rw [if_neg hne]

theorem selectSuite_settled {kept : List String} {known : KnownTags}
    (hk : outcome (selectSuite g s paths) k t = ((.ok kept, known), t)) :
    outcome (selectSuite g s kept) known t = ((.ok kept, known), t) ∧
      (outcome (selectSuite g s kept) k t).1.1 = .ok kept := by
  rcases selectSuite_cases k t g s paths with ⟨hnone, h⟩ | ⟨-, err, -, h⟩ | ⟨-, hr, h⟩
  · rw [h] at hk
    cases hk
    rw [h]
    exact ⟨rfl, rfl⟩
  · rw [h] at hk
    cases hk
  · rw [h] at hk
    cases hk
    have hfirst : ∀ p ∈ matchingFeatures g s paths k t,
        tagsAmong t k (matchingFeatures g s paths k t) p =
          tagsAmong t k (paths.filter namesFeature) p :=
      fun p hp => tagsAmong_filter (selects g s) hp
    have hmem : ∀ p ∈ matchingFeatures g s paths k t, p ∈ paths.filter namesFeature :=
      fun p hp => (List.mem_filter.mp hp).1
    constructor
    · cases hs : isBlankText s with
      | true => simpa [hs] using outcome_selectSuite_again k t hr hfirst
      | false =>
        have hlater := outcome_selectSuite_again k t hr fun p hp =>
          tagsAmong_learnAll (t := t) (k := k) (hmem p hp) (matchingFeatures g s paths k t)
        simpa [hs, filter_learnAll_again hmem] using hlater
    · rw [outcome_selectSuite_again k t hr hfirst]

/-- Nothing is left of a suite exactly when it has only feature files and none of them matches. -/
theorem selectSuite_eq_nil_iff (hne : paths ≠ []) :
    (outcome (selectSuite g s paths) k t).1.1 = .ok [] ↔
      (∀ err, ¬ Refused g s err) ∧ (∀ p ∈ paths, namesFeature p) ∧
        ∀ p ∈ paths, selects g s (tagsAmong t k paths p) = false := by
  constructor
  · intro hk
    rcases selectSuite_cases k t g s paths with ⟨-, h⟩ | ⟨-, err, -, h⟩ | ⟨-, hr, h⟩
    · rw [h] at hk
      exact absurd (Except.ok.inj hk) hne
    · rw [h] at hk
      cases hk
    · rw [h] at hk
      obtain ⟨hmatching, hothers⟩ := List.append_eq_nil_iff.mp (Except.ok.inj hk)
      have hall : ∀ p ∈ paths, namesFeature p := fun p hp => by
        simpa using List.filter_eq_nil_iff.mp hothers p hp
      rw [matchingFeatures, List.filter_eq_self.mpr hall] at hmatching
      exact ⟨hr, hall, fun p hp => by simpa using List.filter_eq_nil_iff.mp hmatching p hp⟩
  · rintro ⟨hr, hall, hmiss⟩
    have hfeatures : paths.filter namesFeature = paths := List.filter_eq_self.mpr hall
    have hothers : paths.filter (!namesFeature ·) = [] :=
      List.filter_eq_nil_iff.mpr fun p hp => by simpa using hall p hp
    have hmatching : matchingFeatures g s paths k t = [] := by
      rw [matchingFeatures, hfeatures]
      exact List.filter_eq_nil_iff.mpr fun p hp => by simpa using hmiss p hp
    rw [outcome_selectSuite_of_not_refused k t hr (by rwa [hfeatures]), hmatching, hothers]
    rfl

end

/-- What a part of a run comes to on some files, with the files that it leaves. -/
def verdict {α : Type} (x : ExceptT Failure (StateM FileTree) α) (t : FileTree) :
    Except Failure α × FileTree :=
  x.run.run t

theorem verdict_bind {α β : Type} (x : ExceptT Failure (StateM FileTree) α)
    (f : α → ExceptT Failure (StateM FileTree) β) (t : FileTree) :
    verdict (x >>= f) t =
      match (verdict x t).1 with
      | .error e => (.error e, (verdict x t).2)
      | .ok a => verdict (f a) (verdict x t).2 := by
  have hcont : verdict (x >>= f) t =
      (ExceptT.bindCont f (verdict x t).1 : StateM FileTree (Except Failure β)).run
        (verdict x t).2 := rfl
  rw [hcont]
  cases (verdict x t).1 with
  | error e => rfl
  | ok a => rfl

theorem verdict_selectSuite (g : Grammar) (s : String) (paths : List String) (t : FileTree) :
    verdict (liftM ((selectSuite g s paths : StateT KnownTags (StateM FileTree) _).run' {})) t =
      (.ok (outcome (selectSuite g s paths) {} t).1.1, (outcome (selectSuite g s paths) {} t).2) :=
  rfl

theorem verdict_chosenSpecs (c : Settings) (specs : List String) (t : FileTree) :
    (verdict (chosenSpecs c specs) t).1 =
      match c.tagExpression with
      | none => .ok specs
      | some e =>
        match (outcome (selectSuite c.grammar e specs) {} t).1.1 with
        | .error err => .error (.badExpression e err)
        | .ok [] => .error (.nothingSelected e)
        | .ok selected => .ok selected := by
  rw [chosenSpecs]
  cases c.tagExpression with
  | none => rfl
  | some e =>
    dsimp only
    rw [verdict_bind, verdict_selectSuite]
    dsimp only
    cases (outcome (selectSuite c.grammar e specs) {} t).1.1 with
    | error err => rfl
    | ok kept =>
      cases kept with
      | nil => rfl
      | cons p kept => rfl

theorem tagExpression_eq_some_iff {c : Settings} {e : String} :
    c.tagExpression = some e ↔ c.tags = some e ∧ isBlankText e = false := by
  rw [Settings.tagExpression, Option.filter_eq_some_iff]
  simp

/-- The given paths, unless there is none. -/
def orNoSpecs (paths : List String) : ExceptT Failure (StateM FileTree) (List String) :=
  if paths.isEmpty then throw .noSpecs else pure paths

theorem orNoSpecs_ne_nil {paths specs : List String} {t : FileTree}
    (h : (verdict (orNoSpecs paths) t).1 = .ok specs) : specs ≠ [] := by
  by_cases hempty : paths.isEmpty
  · rw [orNoSpecs, if_pos hempty] at h
    cases h
  · rw [orNoSpecs, if_neg hempty] at h
    cases h
    simpa using hempty

theorem namedSpecs_some (operands : List String) (path : String) :
    (namedSpecs operands (some path) : ExceptT Failure (StateM FileTree) (List String)) =
      listedSpecs path >>= fun more => orNoSpecs (operands ++ more) := rfl

theorem namedSpecs_ne_nil {operands : List String} {list : Option String} {specs : List String}
    {t : FileTree} (h : (verdict (namedSpecs operands list) t).1 = .ok specs) : specs ≠ [] := by
  cases list with
  | none => exact orNoSpecs_ne_nil h
  | some path =>
    rw [namedSpecs_some, verdict_bind] at h
    split at h
    · cases h
    · exact orNoSpecs_ne_nil h

theorem chosenSpecs_ne_nil {c : Settings} {specs kept : List String} {t : FileTree}
    (hne : specs ≠ []) (h : (verdict (chosenSpecs c specs) t).1 = .ok kept) : kept ≠ [] := by
  rw [verdict_chosenSpecs] at h
  split at h
  · cases h
    exact hne
  · split at h
    · cases h
    · cases h
    · next hnil _ =>
      cases h
      exact hnil

theorem accepted_of_not_refused {g : Grammar} {e : String} (he : isBlankText e = false)
    (h : ∀ err, ¬ Refused g e err) : ∃ r, g.parse e = .ok r := by
  rcases blank_or_parse_cases g e with hb | ⟨r, -, hr⟩ | ⟨err, herr⟩
  · rw [he] at hb
    cases hb
  · exact ⟨r, hr⟩
  · exact absurd herr (h err)

theorem not_refused_of_accepted {g : Grammar} {e : String} {r : Option TagExpr}
    (h : g.parse e = .ok r) (err : TagExprError) : ¬ Refused g e err := by
  intro herr
  rw [herr.2] at h
  cases h

theorem chosenSpecs_eq_nothing_iff {c : Settings} {specs : List String} {t : FileTree} {e : String}
    (hne : specs ≠ []) :
    (verdict (chosenSpecs c specs) t).1 = .error (.nothingSelected e) ↔
      c.tags = some e ∧ isBlankText e = false ∧ (∃ r, c.grammar.parse e = .ok r) ∧
        (∀ p ∈ specs, namesFeature p) ∧
        ∀ p ∈ specs, selects c.grammar e (tagsAmong t {} specs p) = false := by
  rw [verdict_chosenSpecs]
  constructor
  · intro h
    split at h
    · cases h
    · next e' htags =>
      split at h
      · cases h
      · next hnil =>
        cases h
        obtain ⟨htag, hblank⟩ := tagExpression_eq_some_iff.mp htags
        obtain ⟨hr, hfeature, hmiss⟩ := (selectSuite_eq_nil_iff {} t hne).mp hnil
        exact ⟨htag, hblank, accepted_of_not_refused hblank hr, hfeature, hmiss⟩
      · cases h
  · rintro ⟨htag, hblank, ⟨r, hr⟩, hfeature, hmiss⟩
    have hnil := (selectSuite_eq_nil_iff {} t hne).mpr ⟨not_refused_of_accepted hr, hfeature, hmiss⟩
    rw [tagExpression_eq_some_iff.mpr ⟨htag, hblank⟩]
    dsimp only
    rw [hnil]

/-- A suite is refused with the error of the grammar, or filtered to its matching features and its
other files, which filtering leaves alone from then on. The specs of a run are never none, and they
fail to match only where all of them are features. -/
theorem selectSuite_filters (g : Grammar) (s : String) (paths : List String) (k : KnownTags)
    (t : FileTree) :
    let select := fun paths k => outcome (selectSuite g s paths) k t
    let features := paths.filter namesFeature
    let matching := features.filter fun p => selects g s (tagsAmong t k features p)
    (∀ err, (select paths k).1.1 = .error err ↔
      features ≠ [] ∧ isBlankText s = false ∧ g.parse s = .error err) ∧
    (∀ kept known, (select paths k).1 = (.ok kept, known) →
      kept = (if features = [] then paths else matching ++ paths.filter (!namesFeature ·)) ∧
      select kept known = ((.ok kept, known), t) ∧ (select kept k).1.1 = .ok kept) ∧
    (select paths k).2 = t ∧
    (∀ p ∈ features, (∀ q ∈ features, Path.same q p → t.read q = t.read p) →
      tagsAmong t {} features p = tagsOfRead (t.read p)) ∧
    (∀ operands list u, (verdict (namedSpecs operands list) u).1 = .ok paths → paths ≠ []) ∧
    (paths ≠ [] → ∀ c : Settings,
      let chosen := (verdict (chosenSpecs c paths) t).1
      (∀ kept, chosen = .ok kept → kept ≠ []) ∧
      ∀ e, chosen = .error (.nothingSelected e) ↔
        c.tags = some e ∧ isBlankText e = false ∧ (∃ r, c.grammar.parse e = .ok r) ∧
          (∀ p ∈ paths, namesFeature p) ∧
          ∀ p ∈ paths, selects c.grammar e (tagsAmong t {} paths p) = false) := by
  intro select features matching
  refine ⟨selectSuite_eq_error_iff k t, ?_, selectSuite_files k t, ?_, ?_, ?_⟩
  · intro kept known h
    have hfiles : select paths k = ((.ok kept, known), t) :=
      Prod.ext h (selectSuite_files k t)
    obtain ⟨hknown, hagain⟩ := selectSuite_settled k t hfiles
    exact ⟨selectSuite_kept k t (congrArg Prod.fst h), hknown, hagain⟩
  · intro p hp h
    exact tagsAmong_of_read_eq hp h
  · intro operands list u h
    exact namedSpecs_ne_nil h
  · intro hne c
    exact ⟨fun kept h => chosenSpecs_ne_nil hne h, fun e => chosenSpecs_eq_nothing_iff hne⟩

theorem selectSuite_filters_mixed :
    let t : FileTree := ⟨[(["a.feature"], .file (some "@A\nFeature: a\n")),
      (["b.feature"], .file (some "@B @A\nFeature: b\n"))]⟩
    let select := fun paths k => outcome (selectSuite .precedence "@A and not @B" paths) k t
    let paths := ["b.feature", "x.js", "a.feature"]
    (∃ known, select paths {} = ((.ok ["a.feature", "x.js"], known), t) ∧
      select ["a.feature", "x.js"] known = ((.ok ["a.feature", "x.js"], known), t)) ∧
    tagsAmong t {} (paths.filter namesFeature) "b.feature" = tagsOfRead (t.read "b.feature") ∧
    (verdict (namedSpecs ["b.feature"] none) t).1 = .ok ["b.feature"] ∧ ["b.feature"] ≠ [] ∧
    (verdict (chosenSpecs { tags := some "@C" } ["b.feature"]) t).1 =
      .error (.nothingSelected "@C") := by
  intro t select paths
  have hparse : Grammar.precedence.parse "@A and not @B" =
      .ok (some (.and (.tag "@A") (.not (.tag "@B")))) := by decide +kernel
  have hblank : isBlankText "@A and not @B" = false := by decide
  have hfeatures : paths.filter namesFeature = ["b.feature", "a.feature"] := by decide
  have ha : tagsAmong t {} ["b.feature", "a.feature"] "a.feature" = ["@A"] := by decide +kernel
  have hb : tagsAmong t {} ["b.feature", "a.feature"] "b.feature" = ["@B", "@A"] := by decide +kernel
  have hkept : (select paths {}).1.1 = .ok ["a.feature", "x.js"] := by
    have hmatching : matchingFeatures .precedence "@A and not @B" paths {} t = ["a.feature"] := by
      rw [matchingFeatures, hfeatures]
      simp only [selects_of_parse hblank hparse, List.filter, ha, hb]
      rfl
    have hothers : paths.filter (!namesFeature ·) = ["x.js"] := by decide
    have hne : paths.filter namesFeature ≠ [] := by simp [hfeatures]
    simp only [select, outcome_selectSuite_of_not_refused {} t (not_refused_of_accepted hparse) hne,
      hmatching, hothers]
    rfl
  obtain ⟨-, hsettled, hfiles, hown, -⟩ :=
    selectSuite_filters .precedence "@A and not @B" paths {} t
  obtain ⟨-, hagain, -⟩ := hsettled ["a.feature", "x.js"] (select paths {}).1.2 (Prod.ext hkept rfl)
  have htags : tagsAmong t {} (paths.filter namesFeature) "b.feature" =
      tagsOfRead (t.read "b.feature") := by
    apply hown "b.feature" (by decide)
    rw [hfeatures]
    intro q hq hsame
    rcases List.mem_cons.mp hq with rfl | hq
    · rfl
    · rw [List.mem_singleton.mp hq] at hsame
      exact absurd hsame (by decide)
  have hnamed : (verdict (namedSpecs ["b.feature"] none) t).1 = .ok ["b.feature"] := rfl
  obtain ⟨-, -, -, -, hcollected, hchosen⟩ :=
    selectSuite_filters .precedence "@A and not @B" ["b.feature"] {} t
  have hne : ["b.feature"] ≠ [] := hcollected ["b.feature"] none t hnamed
  have hfails : (verdict (chosenSpecs { tags := some "@C" } ["b.feature"]) t).1 =
      .error (.nothingSelected "@C") := by
    apply ((hchosen hne { tags := some "@C" }).2 "@C").mpr
    have hc : Grammar.precedence.parse "@C" = .ok (some (.tag "@C")) := by decide +kernel
    have hmiss : tagsAmong t {} ["b.feature"] "b.feature" = ["@B", "@A"] := by decide +kernel
    refine ⟨rfl, by decide, ⟨_, hc⟩, by decide, ?_⟩
    intro p hp
    rw [List.mem_singleton.mp hp]
    simp only [selects_of_parse (by decide) hc, hmiss]
    rfl
  exact ⟨⟨_, Prod.ext (Prod.ext hkept rfl) hfiles, hagain⟩, htags, hnamed, hne, hfails⟩

end SuitePlan
