import SuitePlan.Proofs.Selection.Known
import SuitePlan.Selection.Satisfying

/-! Selecting specs by the text of an expression, which is evaluated for the tags of every path or refused
for all. -/

namespace SuitePlan

open KnownTags

theorem selectSuite_eq {m : Type → Type} [Monad m] [Storage m] (g : Grammar) (s : String)
    (paths : List String) :
    (selectSuite g s paths : StateT KnownTags m _) =
      if (paths.filter namesFeature).isEmpty then pure (.ok paths)
      else selectFiles g s (paths.filter namesFeature) >>= fun selected =>
        pure (selected.map (· ++ paths.filter (!namesFeature ·))) := rfl

theorem filterAuxM_ok {α ε : Type} (p : α → Bool) (l acc : List α) :
    l.filterAuxM (fun a => (.ok (p a) : Except ε Bool)) acc =
      .ok ((l.filter p).reverse ++ acc) := by
  induction l generalizing acc with
  | nil => rfl
  | cons a l ih =>
    have hstep : (a :: l).filterAuxM (fun a => (.ok (p a) : Except ε Bool)) acc =
        l.filterAuxM (fun a => (.ok (p a) : Except ε Bool)) (cond (p a) (a :: acc) acc) := rfl
    rw [hstep, ih]
    by_cases h : p a
    · simp [h]
    · simp [h]

theorem filterM_ok {α ε : Type} (p : α → Bool) (l : List α) :
    l.filterM (fun a => (.ok (p a) : Except ε Bool)) = .ok (l.filter p) := by
  rw [List.filterM, filterAuxM_ok]
  simp [bind, Except.bind, pure, Except.pure]

theorem map_fst_filter_zip_map {α β : Type} (f : α → β) (p : β → Bool) (l : List α) :
    ((l.zip (l.map f)).filter fun s => p s.2).map (·.1) = l.filter fun a => p (f a) := by
  induction l with
  | nil => rfl
  | cons a l ih =>
    by_cases h : p (f a)
    · simp [h, ih]
    · simp [h, ih]

theorem map_fst_zip_sublist {α β : Type} (l : List α) (m : List β) :
    ((l.zip m).map (·.1)).Sublist l := by
  induction l generalizing m with
  | nil => exact List.nil_sublist _
  | cons a l ih =>
    cases m with
    | nil => exact List.nil_sublist _
    | cons b m => exact (ih m).cons_cons a

theorem selectPaths_of_accepted {g : Grammar} {s : String} {r : Option TagExpr}
    (hs : isBlankText s = false) (h : g.parse s = .ok r) (specs : List (String × List Tag)) :
    selectPaths g s specs = .ok ((specs.filter fun x => holds r x.2).map (·.1)) := by
  have hsat : ∀ tags, satisfies g s tags = .ok (holds r tags) := by
    intro tags
    simp [satisfies, hs, h, Except.map]
  simp only [selectPaths, hsat, filterM_ok, Except.map]

/-- The paths whose tags satisfy the expression are selected, in their order. -/
theorem outcome_selectFiles {g : Grammar} {s : String} {r : Option TagExpr}
    (hs : isBlankText s = false) (h : g.parse s = .ok r) (paths : List String) (k : KnownTags)
    (t : FileTree) :
    outcome (selectFiles g s paths) k t =
      ((.ok (paths.filter fun p => holds r (tagsIn t (learnAll t k paths) p)),
        learnAll t k paths), t) := by
  simp only [selectFiles, selectFilesWith, hs, Bool.false_eq_true, if_false, outcome_bind,
    outcome_readAllTags, outcome_pure, selectPaths_of_accepted hs h]
  rw [map_fst_filter_zip_map]

/-- An expression is evaluated for all tags, or refused for all. -/
theorem satisfies_cases (g : Grammar) (s : String) :
    (∃ p : List Tag → Bool, ∀ tags, satisfies g s tags = .ok (p tags)) ∨
      ∃ err, ∀ tags, satisfies g s tags = .error err := by
  cases hs : isBlankText s with
  | true => exact .inl ⟨fun _ => true, fun tags => by simp [satisfies, hs]⟩
  | false =>
    cases hp : g.parse s with
    | ok r => exact .inl ⟨holds r, fun tags => by simp [satisfies, hs, hp, Except.map]⟩
    | error err => exact .inr ⟨err, fun tags => by simp [satisfies, hs, hp, Except.map]⟩

/-- What is kept are the paths to whose tags a test applies. -/
theorem selectPaths_eq_ok {g : Grammar} {s : String} {specs : List (String × List Tag)}
    {kept : List String} (h : selectPaths g s specs = .ok kept) :
    ∃ p : List Tag → Bool, kept = (specs.filter fun x => p x.2).map (·.1) := by
  rcases satisfies_cases g s with ⟨p, hp⟩ | ⟨err, herr⟩
  · simp only [selectPaths, hp, filterM_ok, Except.map] at h
    cases h
    exact ⟨p, rfl⟩
  · cases specs with
    | nil =>
      cases h
      exact ⟨fun _ => true, rfl⟩
    | cons x specs =>
      simp only [selectPaths, List.filterM, List.filterAuxM, herr] at h
      cases h

/-- The tags of paths that have been asked for do not depend on what else is asked for. -/
theorem filter_learnAll_again {t : FileTree} {k : KnownTags} {paths kept : List String}
    (h : ∀ p ∈ kept, p ∈ paths) :
    learnAll t (learnAll t k paths) kept = learnAll t k paths := by
  apply learnAll_of_known
  intro p hp
  obtain ⟨tags, htags⟩ := exists_find?_learnAll (t := t) (k := k) (h p hp)
  rw [htags]
  rfl

end SuitePlan
