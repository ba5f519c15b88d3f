import SuitePlan.FileTree
import SuitePlan.Proofs.KeyedList
import SuitePlan.Selection.KnownTags

/-! What is known after the tags of some paths have been asked for. What is known already stays as
it is, so the tags of a path do not change any more once they have been read. -/

namespace SuitePlan

/-- What a program does that starts with some known tags and some files. -/
def outcome {α : Type} (x : StateT KnownTags (StateM FileTree) α) (k : KnownTags) (t : FileTree) :
    (α × KnownTags) × FileTree :=
  (x.run k).run t

section

variable {α β : Type} (k : KnownTags) (t : FileTree)

theorem outcome_pure (a : α) : outcome (pure a) k t = ((a, k), t) := rfl

theorem outcome_bind (x : StateT KnownTags (StateM FileTree) α)
    (f : α → StateT KnownTags (StateM FileTree) β) :
    outcome (x >>= f) k t =
      outcome (f (outcome x k t).1.1) (outcome x k t).1.2 (outcome x k t).2 := rfl

end

namespace KnownTags

theorem find?_insert (k : KnownTags) (path other : String) (tags : List Tag) :
    (k.insert path tags).find? other =
      if Path.components other.toList = Path.components path.toList then some tags
      else k.find? other := by
  simp only [insert, find?, lookup_cons_eq]
  by_cases h : Path.components other.toList = Path.components path.toList
  · rw [if_pos h, if_pos h]
  · rw [if_neg h, if_neg h, lookup_filter_ne h]

/-- The tags that a request for a path gives. -/
def tagsIn (t : FileTree) (k : KnownTags) (path : String) : List Tag :=
  (k.find? path).getD (tagsOfRead (t.read path))

/-- What is known after a request for a path. -/
def learn (t : FileTree) (k : KnownTags) (path : String) : KnownTags :=
  if (k.find? path).isSome then k else k.insert path (tagsOfRead (t.read path))

def learnAll (t : FileTree) (k : KnownTags) (paths : List String) : KnownTags :=
  paths.foldl (learn t) k

variable {t : FileTree} {k : KnownTags}

theorem find?_learn_self (path : String) :
    (learn t k path).find? path = some (tagsIn t k path) := by
  cases h : k.find? path with
  | none => simp [learn, tagsIn, h, find?_insert]
  | some tags => simp [learn, tagsIn, h]

theorem find?_learn {other : String} {tags : List Tag} (h : k.find? other = some tags)
    (path : String) : (learn t k path).find? other = some tags := by
  by_cases hp : (k.find? path).isSome
  · rw [learn, if_pos hp, h]
  · have hne : Path.components other.toList ≠ Path.components path.toList := by
      intro he
      have hsame : k.find? path = k.find? other := by simp only [find?, he]
      rw [hsame, h] at hp
      exact hp rfl
    rw [learn, if_neg hp, find?_insert, if_neg hne, h]

theorem find?_learnAll {other : String} {tags : List Tag} (h : k.find? other = some tags)
    (paths : List String) : (learnAll t k paths).find? other = some tags := by
  induction paths generalizing k with
  | nil => exact h
  | cons path paths ih => exact ih (find?_learn h path)

theorem exists_find?_learnAll {path : String} {paths : List String} (h : path ∈ paths) :
    ∃ tags, (learnAll t k paths).find? path = some tags := by
  induction paths generalizing k with
  | nil => cases h
  | cons other paths ih =>
    rcases List.mem_cons.mp h with rfl | h
    · exact ⟨_, find?_learnAll (find?_learn_self path) paths⟩
    · exact ih h

theorem learnAll_of_known {paths : List String} (h : ∀ p ∈ paths, (k.find? p).isSome) :
    learnAll t k paths = k := by
  induction paths with
  | nil => rfl
  | cons path paths ih =>
    have hp : learn t k path = k := if_pos (h path List.mem_cons_self)
    have hh := ih fun p hm => h p (List.mem_cons_of_mem _ hm)
    rw [learnAll, List.foldl_cons, hp]
    exact hh

theorem tagsIn_learnAll (other : String) (paths : List String) {tags : List Tag}
    (h : k.find? other = some tags) : tagsIn t (learnAll t k paths) other = tags := by
  rw [tagsIn, find?_learnAll h, Option.getD_some]

end KnownTags

open KnownTags

theorem outcome_step (r : Request) (k : KnownTags) (t : FileTree) :
    outcome r.step k t =
      match r with
      | .lookUp path =>
        match k.find? path with
        | some tags => ((.done tags, k), t)
        | none => ((.read path, k), t)
      | .read path => ((.record path (tagsOfRead (t.read path)), k), t)
      | .record path tags => ((.done tags, k.insert path tags), t)
      | .done tags => ((.done tags, k), t) := by
  cases r with
  | lookUp path =>
    have hstep : outcome (Request.lookUp path).step k t =
        outcome (match k.find? path with
          | some tags => pure (.done tags)
          | none => pure (.read path)) k t := rfl
    rw [hstep]
    dsimp only
    cases k.find? path with
    | none => rfl
    | some tags => rfl
  | read path => rfl
  | record path tags => rfl
  | done tags => rfl

theorem outcome_readTags (path : String) (k : KnownTags) (t : FileTree) :
    outcome (readTags path) k t = ((tagsIn t k path, learn t k path), t) := by
  cases h : k.find? path with
  | none =>
    simp only [readTags, Request.finish, outcome_bind, outcome_pure, outcome_step, h, learn, tagsIn,
      Option.isSome_none, Option.getD_none, Request.answer]
    rfl
  | some tags =>
    simp only [readTags, Request.finish, outcome_bind, outcome_pure, outcome_step, h, learn, tagsIn,
      Option.isSome_some, Option.getD_some, Request.answer]
    rfl

theorem outcome_readAllTags (paths : List String) (k : KnownTags) (t : FileTree) :
    outcome (readAllTags paths) k t =
      ((paths.map (tagsIn t (learnAll t k paths)), learnAll t k paths), t) := by
  induction paths generalizing k with
  | nil => rfl
  | cons path paths ih =>
    have hall : learnAll t k (path :: paths) = learnAll t (learn t k path) paths := rfl
    have hhead : tagsIn t (learnAll t (learn t k path) paths) path = tagsIn t k path :=
      tagsIn_learnAll path paths (find?_learn_self path)
    have hh := ih (learn t k path)
    rw [readAllTags] at hh
    rw [hall, readAllTags, List.mapM_cons]
    simp only [outcome_bind, outcome_pure, outcome_readTags, hh, List.map_cons, hhead]

end SuitePlan
