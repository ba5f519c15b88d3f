import SuitePlan.Proofs.Manifest.Recordings
import SuitePlan.Proofs.Storage.Frame

/-! Writing the manifest of a suite. It is made of the files as they are once the old manifest is gone, and
no other file changes. -/

namespace SuitePlan

open Storage

namespace Manifest

/-- The manifest of the feature files at some paths, as they are. -/
def ofTree (t : FileTree) (now : Time) (base : String) (tagExpression : Option String)
    (paths : List String) : Manifest :=
  ofSource now base tagExpression (fun p => documentOf (t.read p)) paths

variable {t u : FileTree} {now : Time} {base dir : String} {tagExpression : Option String}
  {paths : List String}

/-- All that writing a manifest can do. -/
theorem renew_cases {r : Except StorageError Manifest}
    (h : (renew now base tagExpression dir paths : StateM FileTree _).run t = (r, u)) :
    (∃ e, r = .error e ∧ u = t) ∨
    ∃ v saved, (t.remove (Path.child dir fileName) = .ok v ∨ v = t) ∧
      (save (Path.child dir fileName) (ofTree v now base tagExpression paths).toJson.pretty :
        StateM FileTree _).run v = (saved, u) ∧
      r = saved.map fun _ => ofTree v now base tagExpression paths := by
  -- Whether a manifest was removed or there was none, what follows is the same.
  have hsave : ∀ v a, (remove (Path.child dir fileName) : StateM FileTree _).run t = (a, v) →
      a = .ok () ∨ a = .error .notFound →
      ∃ saved, (save (Path.child dir fileName) (ofTree v now base tagExpression paths).toJson.pretty :
          StateM FileTree _).run v = (saved, u) ∧
        r = saved.map fun _ => ofTree v now base tagExpression paths := by
    intro v a hremove ha
    have hfiles : (ofFiles now base tagExpression paths : StateM FileTree _).run v =
        (ofTree v now base tagExpression paths, v) := run_ofFiles now base tagExpression paths v
    obtain ⟨⟨saved, w⟩, hs⟩ : ∃ s, (save (Path.child dir fileName)
        (ofTree v now base tagExpression paths).toJson.pretty : StateM FileTree _).run v = s := ⟨_, rfl⟩
    rw [renew, run_bind, hremove] at h
    rcases ha with rfl | rfl
    all_goals
      dsimp only at h
      rw [run_bind, hfiles] at h
      dsimp only at h
      rw [run_bind, hs] at h
      cases saved with
      | ok a =>
        cases h
        exact ⟨_, hs, rfl⟩
      | error e =>
        cases h
        exact ⟨_, hs, rfl⟩
  cases hr : t.remove (Path.child dir fileName) with
  | ok v =>
    obtain ⟨saved, hsaved⟩ := hsave v _ (run_remove_of_ok hr) (.inl rfl)
    exact .inr ⟨v, saved, .inl rfl, hsaved⟩
  | error e =>
    have hremove := run_remove_of_error hr
    cases e with
    | notFound =>
      obtain ⟨saved, hsaved⟩ := hsave t _ hremove (.inr rfl)
      exact .inr ⟨t, saved, .inr rfl, hsaved⟩
    | notText | other =>
      rw [renew, run_bind, hremove] at h
      cases h
      exact .inl ⟨_, rfl, rfl⟩

theorem changesOnly_renew {r : Except StorageError Manifest}
    (h : (renew now base tagExpression dir paths : StateM FileTree _).run t = (r, u)) :
    t.ChangesOnly (Path.child dir fileName) u := by
  rcases renew_cases h with ⟨-, -, rfl⟩ | ⟨v, saved, hv, hsave, -⟩
  · exact (FileTree.Grows.refl u).changesOnly _
  · rcases hv with hv | rfl
    · exact changesOnly_replace hv hsave
    · exact changesOnly_save hsave

/-- A manifest that was written can be read where it was written. -/
theorem exists_of_renew {manifest : Manifest}
    (h : (renew now base tagExpression dir paths : StateM FileTree _).run t = (.ok manifest, u)) :
    ∃ v, (t.remove (Path.child dir fileName) = .ok v ∨ v = t) ∧
      manifest = ofTree v now base tagExpression paths ∧
      u.read (Path.child dir fileName) = .ok manifest.toJson.pretty := by
  rcases renew_cases h with ⟨e, he, -⟩ | ⟨v, saved, hv, hsave, hr⟩
  · cases he
  · cases saved with
    | error e => cases hr
    | ok a =>
      cases hr
      exact ⟨v, hv, rfl, read_of_save hsave⟩

end Manifest

end SuitePlan
