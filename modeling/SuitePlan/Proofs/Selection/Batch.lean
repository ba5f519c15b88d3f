import Mathlib.Algebra.GroupWithZero.Nat
import Mathlib.Algebra.BigOperators.Group.List.Basic
import SuitePlan.Proofs.Selection.Known
import SuitePlan.Selection.Batch

/-! Batches of requests in every order of their steps. What is known about a path is decided once for a
batch, by the first read that is recorded or by one that raced with it. -/

namespace SuitePlan

open KnownTags

/-- What makes paths the same to the known tags. -/
abbrev pathKey (path : String) : List (List Char) := Path.components path.toList

theorem KnownTags.find?_congr (k : KnownTags) {p q : String} (h : pathKey p = pathKey q) :
    k.find? p = k.find? q :=
  congrArg (k.entries.lookup ·) h

namespace Task

def isRunning : Task → Bool
  | running _ => true
  | _ => false

/-- The steps that a task has before it at most. -/
def remaining : Task → Nat
  | waiting _ => 6
  | running (.lookUp _) => 5
  | running (.read _) => 4
  | running (.record _ _) => 3
  | running (.done _) => 2
  | finished _ => 1
  | collected => 0

end Task

namespace Request

/-- What one step makes of a request that is not done, and of the known tags. -/
inductive Step (t : FileTree) : Request → KnownTags → Request → KnownTags → Prop
  | found {k : KnownTags} {path : String} {tags : List Tag} (h : k.find? path = some tags) :
      Step t (.lookUp path) k (.done tags) k
  | missed {k : KnownTags} {path : String} (h : k.find? path = none) :
      Step t (.lookUp path) k (.read path) k
  | read (k : KnownTags) (path : String) :
      Step t (.read path) k (.record path (tagsOfRead (t.read path))) k
  | record (k : KnownTags) (path : String) (tags : List Tag) :
      Step t (.record path tags) k (.done tags) (k.insert path tags)

variable {t : FileTree} {r s : Request} {k l : KnownTags}

theorem step_outcome (t : FileTree) {r : Request} (h : ∀ tags, r ≠ .done tags) (k : KnownTags) :
    Step t r k (outcome r.step k t).1.1 (outcome r.step k t).1.2 ∧ (outcome r.step k t).2 = t := by
  rw [outcome_step]
  cases r with
  | lookUp path =>
    dsimp only
    cases hf : k.find? path with
    | none => exact ⟨.missed hf, rfl⟩
    | some tags => exact ⟨.found hf, rfl⟩
  | read path => exact ⟨.read k path, rfl⟩
  | record path tags => exact ⟨.record k path tags, rfl⟩
  | done tags => exact (h tags rfl).elim

theorem Step.remaining_lt (h : Step t r k s l) :
    (Task.running s).remaining < (Task.running r).remaining := by
  cases h <;> simp [Task.remaining]

theorem Step.unique {s' : Request} {l' : KnownTags} (h : Step t r k s l) (h' : Step t r k s' l') :
    s = s' ∧ l = l' := by
  cases h <;> cases h' <;> simp_all

theorem Step.not_done (h : Step t r k s l) (tags : List Tag) : r ≠ .done tags := by
  cases h <;> simp

end Request

namespace Batch

/-- What a move makes of a batch while the files stay as they are. -/
inductive Step (t : FileTree) (b : Batch) : Batch → Prop
  | spawn {path : String} {paths : List String} (h : b.unspawned = path :: paths) :
      Step t b { b with unspawned := paths, tasks := b.tasks ++ [.waiting path] }
  | acquire {i : Nat} {path : String} (hi : b.tasks[i]? = some (.waiting path))
      (hp : b.permits ≠ 0) :
      Step t b { b with
        permits := b.permits - 1
        tasks := b.tasks.set i (.running (.lookUp path)) }
  | request {i : Nat} {r s : Request} {k : KnownTags} (hi : b.tasks[i]? = some (.running r))
      (hr : r.Step t b.known s k) :
      Step t b { b with known := k, tasks := b.tasks.set i (.running s) }
  | release {i : Nat} {tags : List Tag} (hi : b.tasks[i]? = some (.running (.done tags))) :
      Step t b { b with permits := b.permits + 1, tasks := b.tasks.set i (.finished tags) }
  | collect {i : Nat} {tags : List Tag} (hi : b.tasks[i]? = some (.finished tags))
      (hu : b.unspawned = []) :
      Step t b { b with tasks := b.tasks.set i .collected, results := b.results.set i tags }

variable {t : FileTree} {b c : Batch}

theorem run_advance_request (b : Batch) (i : Nat) {r : Request} (h : ∀ tags, r ≠ .done tags)
    (t : FileTree) :
    (b.advance i (.running r) : StateM FileTree (Option Batch)).run t =
      (some { b with
        known := (outcome r.step b.known t).1.2
        tasks := b.tasks.set i (.running (outcome r.step b.known t).1.1) },
        (outcome r.step b.known t).2) := by
  cases r with
  | done tags => exact (h tags rfl).elim
  | _ => rfl

theorem step_of_advance {i : Nat} {task : Task} {u : FileTree} (hi : b.tasks[i]? = some task)
    (h : (b.advance i task : StateM FileTree (Option Batch)).run t = (some c, u)) :
    Step t b c ∧ u = t := by
  cases task with
  | waiting path =>
    by_cases hp : b.permits = 0
    · rw [advance, if_pos hp] at h
      cases h
    · rw [advance, if_neg hp] at h
      cases h
      exact ⟨.acquire hi hp, rfl⟩
  | running r =>
    by_cases hd : ∃ tags, r = .done tags
    · obtain ⟨tags, rfl⟩ := hd
      cases h
      exact ⟨.release hi, rfl⟩
    · have hr : ∀ tags, r ≠ .done tags := fun tags he => hd ⟨tags, he⟩
      obtain ⟨hstep, htree⟩ := Request.step_outcome t hr b.known
      rw [run_advance_request b i hr, htree] at h
      cases h
      exact ⟨.request hi hstep, rfl⟩
  | finished tags =>
    by_cases hu : b.unspawned = []
    · rw [advance, if_pos hu] at h
      cases h
      exact ⟨.collect hi hu, rfl⟩
    · rw [advance, if_neg hu] at h
      cases h
  | collected => cases h

theorem step_of_move {move : Move} {u : FileTree}
    (h : (b.move move : StateM FileTree (Option Batch)).run t = (some c, u)) :
    Step t b c ∧ u = t := by
  cases move with
  | spawn =>
    rw [Batch.move] at h
    cases hu : b.unspawned with
    | nil =>
      rw [hu] at h
      cases h
    | cons path paths =>
      rw [hu] at h
      cases h
      exact ⟨.spawn hu, rfl⟩
  | advance i =>
    rw [Batch.move] at h
    cases hi : b.tasks[i]? with
    | none =>
      rw [hi] at h
      cases h
    | some task =>
      rw [hi] at h
      exact step_of_advance hi h

theorem move_of_advance {i : Nat} {task : Task} (hi : b.tasks[i]? = some task)
    (h : (b.advance i task : StateM FileTree (Option Batch)).run t = (some c, t)) :
    ∃ move, (b.move move : StateM FileTree (Option Batch)).run t = (some c, t) := by
  refine ⟨.advance i, ?_⟩
  rw [move, hi]
  exact h

theorem move_of_step (h : Step t b c) :
    ∃ move, (b.move move : StateM FileTree (Option Batch)).run t = (some c, t) := by
  cases h with
  | spawn hu =>
    refine ⟨.spawn, ?_⟩
    rw [move, hu]
    rfl
  | acquire hi hp =>
    apply move_of_advance hi
    rw [advance, if_neg hp]
    rfl
  | @request i r s k hi hr =>
    apply move_of_advance hi
    obtain ⟨hout, htree⟩ := Request.step_outcome t hr.not_done b.known
    rw [run_advance_request b i hr.not_done, htree]
    obtain ⟨rfl, rfl⟩ := hout.unique hr
    rfl
  | release hi => exact move_of_advance hi rfl
  | collect hi hu =>
    apply move_of_advance hi
    rw [advance, if_pos hu]
    rfl

/-- The steps that a batch has before it at most. -/
def remaining (b : Batch) : Nat := 7 * b.unspawned.length + (b.tasks.map Task.remaining).sum

theorem exists_split {α : Type} {l : List α} {i : Nat} {a : α} (h : l[i]? = some a) :
    ∃ before after, l = before ++ a :: after ∧ ∀ b, l.set i b = before ++ b :: after := by
  obtain ⟨hi, ha⟩ := List.getElem?_eq_some_iff.mp h
  refine ⟨l.take i, l.drop (i + 1), ?_, fun b => List.set_eq_take_append_cons_drop.trans (if_pos hi)⟩
  rw [← ha, List.getElem_cons_drop, List.take_append_drop]

theorem sum_remaining_set {l : List Task} {i : Nat} {old : Task} (h : l[i]? = some old) (new : Task) :
    ((l.set i new).map Task.remaining).sum + old.remaining =
      (l.map Task.remaining).sum + new.remaining := by
  obtain ⟨before, after, hl, hset⟩ := exists_split h
  rw [hset, hl]
  simp only [List.map_append, List.map_cons, List.sum_append, List.sum_cons]
  omega

theorem countP_running_set {l : List Task} {i : Nat} {old : Task} (h : l[i]? = some old) (new : Task) :
    (l.set i new).countP Task.isRunning + (if old.isRunning then 1 else 0) =
      l.countP Task.isRunning + (if new.isRunning then 1 else 0) := by
  obtain ⟨before, after, hl, hset⟩ := exists_split h
  rw [hset, hl]
  simp only [List.countP_append, List.countP_cons]
  omega

theorem Step.remaining_lt (h : Step t b c) : c.remaining < b.remaining := by
  cases h with
  | spawn hu =>
    simp only [remaining, hu, List.map_append, List.sum_append, List.length_cons, List.map_singleton,
      List.sum_singleton, Task.remaining]
    omega
  | @acquire i path hi hp =>
    have hsum := sum_remaining_set hi (.running (.lookUp path))
    simp only [remaining, Task.remaining] at hsum ⊢
    omega
  | @request i r s k hi hr =>
    have hsum := sum_remaining_set hi (.running s)
    have hlt := hr.remaining_lt
    simp only [remaining] at hsum ⊢
    omega
  | @release i tags hi =>
    have hsum := sum_remaining_set hi (.finished tags)
    simp only [remaining, Task.remaining] at hsum ⊢
    omega
  | collect hi hu =>
    have hsum := sum_remaining_set hi .collected
    simp only [remaining, Task.remaining] at hsum ⊢
    omega

/-- A run is a sequence of steps that leaves the files alone, and each step uses up one that was
before the batch. -/
theorem reaches_of_run {moves : List Move} {u : FileTree}
    (h : (b.run moves : StateM FileTree (Option Batch)).run t = (some c, u)) :
    Relation.ReflTransGen (Step t) b c ∧ u = t ∧ moves.length + c.remaining ≤ b.remaining := by
  induction moves generalizing b with
  | nil =>
    cases h
    exact ⟨.refl, rfl, by simp⟩
  | cons move moves ih =>
    rw [run, StateT.run_bind] at h
    cases hm : (b.move move : StateM FileTree (Option Batch)).run t with
    | mk first v =>
      rw [hm] at h
      cases first with
      | none => cases h
      | some next =>
        obtain ⟨hstep, rfl⟩ := step_of_move hm
        obtain ⟨hreach, hu, hlen⟩ := ih h
        have hlt := hstep.remaining_lt
        rw [List.length_cons]
        exact ⟨.head hstep hreach, hu, by omega⟩

theorem run_of_reaches (h : Relation.ReflTransGen (Step t) b c) :
    ∃ moves, (b.run moves : StateM FileTree (Option Batch)).run t = (some c, t) := by
  induction h using Relation.ReflTransGen.head_induction_on with
  | refl => exact ⟨[], rfl⟩
  | head hstep _ ih =>
    obtain ⟨move, hmove⟩ := move_of_step hstep
    obtain ⟨moves, hmoves⟩ := ih
    refine ⟨move :: moves, ?_⟩
    rw [run, StateT.run_bind, hmove]
    exact hmoves

section Results

variable (t : FileTree) (k : KnownTags) (paths : List String) (limit : Nat)

/-- The tags that a batch may give for a path: those known from the beginning, or else those read from
a listed path that is the same. -/
def Possible (path : String) (tags : List Tag) : Prop :=
  k.find? path = some tags ∨
    k.find? path = none ∧
      ∃ other ∈ paths, pathKey other = pathKey path ∧ tagsOfRead (t.read other) = tags

/-- What is true of the task for a path and of its result. -/
def Sound (known : KnownTags) (path : String) (result : List Tag) : Task → Prop
  | .waiting p => p = path
  | .running (.lookUp p) => p = path
  | .running (.read p) => p = path ∧ k.find? path = none
  | .running (.record p tags) => p = path ∧ k.find? path = none ∧ tags = tagsOfRead (t.read path)
  | .running (.done tags) => Possible t k paths path tags ∧ (known.find? path).isSome
  | .finished tags => Possible t k paths path tags ∧ (known.find? path).isSome
  | .collected => Possible t k paths path result ∧ (known.find? path).isSome

structure Invariant (b : Batch) : Prop where
  possible : ∀ path tags, b.known.find? path = some tags → Possible t k paths path tags
  kept : ∀ path, (k.find? path).isSome → (b.known.find? path).isSome
  spawned : ∃ spawned, paths = spawned ++ b.unspawned ∧ b.tasks.length = spawned.length
  results : b.results.length = paths.length
  permits : b.permits + b.tasks.countP Task.isRunning = limit
  sound : ∀ (i : Nat) path result task, paths[i]? = some path → b.results[i]? = some result →
    b.tasks[i]? = some task → Sound t k paths b.known path result task

variable {t k paths limit}

theorem Sound.mono {known known' : KnownTags} {path : String} {result : List Tag} {task : Task}
    (h : Sound t k paths known path result task)
    (hgrow : ∀ p, (known.find? p).isSome → (known'.find? p).isSome) :
    Sound t k paths known' path result task := by
  match task with
  | .waiting _ => exact h
  | .running (.lookUp _) => exact h
  | .running (.read _) => exact h
  | .running (.record _ _) => exact h
  | .running (.done _) => exact ⟨h.1, hgrow path h.2⟩
  | .finished _ => exact ⟨h.1, hgrow path h.2⟩
  | .collected => exact ⟨h.1, hgrow path h.2⟩

theorem invariant_start : Invariant t k paths limit (start k limit paths) where
  possible _ _ h := .inl h
  kept _ h := h
  spawned := ⟨[], rfl, rfl⟩
  results := List.length_map _
  permits := rfl
  sound i path result task _ _ h := by cases h

/-- One task goes on: the others stay sound as long as nothing is forgotten. -/
theorem Invariant.sound_set (h : Invariant t k paths limit b) {i : Nat} {old new : Task}
    {known : KnownTags} {results : List (List Tag)} (hi : b.tasks[i]? = some old)
    (hgrow : ∀ p, (b.known.find? p).isSome → (known.find? p).isSome)
    (hresults : ∀ j, j ≠ i → results[j]? = b.results[j]?)
    (hnew : ∀ path before after, path ∈ paths → results[i]? = some after →
      Sound t k paths b.known path before old → Sound t k paths known path after new) :
    ∀ (j : Nat) path result task, paths[j]? = some path → results[j]? = some result →
      (b.tasks.set i new)[j]? = some task → Sound t k paths known path result task := by
  intro j path result task hp hr ht
  by_cases hj : j = i
  · subst hj
    obtain ⟨hlt, -⟩ := List.getElem?_eq_some_iff.mp hi
    obtain ⟨hpl, -⟩ := List.getElem?_eq_some_iff.mp hp
    rw [List.getElem?_set_self hlt] at ht
    cases ht
    have hlen : j < b.results.length := h.results ▸ hpl
    have hbefore := h.sound j path _ old hp (List.getElem?_eq_getElem hlen) hi
    exact hnew path _ result (List.mem_of_getElem? hp) hr hbefore
  · rw [List.getElem?_set_ne (Ne.symm hj)] at ht
    rw [hresults j hj] at hr
    exact (h.sound j path result task hp hr ht).mono hgrow

theorem Invariant.length_tasks (h : Invariant t k paths limit b) :
    b.tasks.length + b.unspawned.length = paths.length := by
  obtain ⟨spawned, hpaths, hlen⟩ := h.spawned
  rw [hpaths, List.length_append, hlen]

theorem Invariant.sound_at (h : Invariant t k paths limit b) {i : Nat} {task : Task}
    (hi : b.tasks[i]? = some task) :
    ∃ path ∈ paths, ∃ result, Sound t k paths b.known path result task := by
  obtain ⟨hlt, -⟩ := List.getElem?_eq_some_iff.mp hi
  have hlen := h.length_tasks
  have hpath : i < paths.length := by omega
  have hresult : i < b.results.length := h.results ▸ hpath
  exact ⟨_, List.getElem_mem hpath, _, h.sound i _ _ task (List.getElem?_eq_getElem hpath)
    (List.getElem?_eq_getElem hresult) hi⟩

/-- What is recorded is what was read from a listed path, and nothing is forgotten. -/
theorem Invariant.insert (h : Invariant t k paths limit b) {path : String} (hp : path ∈ paths)
    (hk : k.find? path = none) :
    let known := b.known.insert path (tagsOfRead (t.read path))
    (∀ p tags, known.find? p = some tags → Possible t k paths p tags) ∧
      (∀ p, (b.known.find? p).isSome → (known.find? p).isSome) ∧ (known.find? path).isSome := by
  refine ⟨fun p tags hf => ?_, fun p hf => ?_, ?_⟩
  · rw [find?_insert] at hf
    by_cases he : pathKey p = pathKey path
    · rw [if_pos he] at hf
      cases hf
      exact .inr ⟨(k.find?_congr he).trans hk, path, hp, he.symm, rfl⟩
    · rw [if_neg he] at hf
      exact h.possible p tags hf
  · rw [find?_insert]
    split
    · rfl
    · exact hf
  · rw [find?_insert, if_pos rfl]
    rfl

theorem Invariant.step (h : Invariant t k paths limit b) (hs : Step t b c) :
    Invariant t k paths limit c := by
  cases hs with
  | @spawn path rest hu =>
    obtain ⟨spawned, hpaths, hlen⟩ := h.spawned
    have hnext : paths = (spawned ++ [path]) ++ rest := by
      rw [hpaths, hu, List.append_assoc, List.singleton_append]
    refine ⟨h.possible, h.kept, ⟨_, hnext, by simp [hlen]⟩, h.results, ?_, ?_⟩
    · have hwaiting : [Task.waiting path].countP Task.isRunning = 0 := rfl
      rw [List.countP_append, hwaiting]
      exact h.permits
    · intro i p result task hp hr ht
      by_cases hi : i < b.tasks.length
      · rw [List.getElem?_append_left hi] at ht
        exact h.sound i p result task hp hr ht
      · obtain ⟨hlt, -⟩ := List.getElem?_eq_some_iff.mp ht
        rw [List.length_append, List.length_singleton] at hlt
        obtain rfl : i = b.tasks.length := by omega
        rw [List.getElem?_append_right le_rfl, Nat.sub_self] at ht
        rw [hpaths, hu, hlen, List.getElem?_append_right le_rfl, Nat.sub_self] at hp
        cases ht
        cases hp
        rfl
  | @acquire i path hi hp =>
    have hcount := countP_running_set hi (.running (.lookUp path))
    have hpermits := h.permits
    refine ⟨h.possible, h.kept, by simpa using h.spawned, h.results, ?_, ?_⟩
    · simp only [Task.isRunning, if_true, Bool.false_eq_true, if_false] at hcount ⊢
      omega
    · exact h.sound_set hi (fun _ hf => hf) (fun _ _ => rfl) fun _ _ _ _ _ hsound => hsound
  | @request i r s known hi hr =>
    have hcount := countP_running_set hi (.running s)
    have hpermits := h.permits
    have hcount' : b.permits + (b.tasks.set i (.running s)).countP Task.isRunning = limit := by
      simp only [Task.isRunning] at hcount
      omega
    cases hr with
    | found hf =>
      refine ⟨h.possible, h.kept, by simpa using h.spawned, h.results, hcount', ?_⟩
      refine h.sound_set hi (fun _ hf => hf) (fun _ _ => rfl) fun p _ _ _ _ hsound => ?_
      obtain rfl : _ = p := hsound
      exact ⟨h.possible _ _ hf, Option.isSome_of_eq_some hf⟩
    | missed hf =>
      refine ⟨h.possible, h.kept, by simpa using h.spawned, h.results, hcount', ?_⟩
      refine h.sound_set hi (fun _ hf => hf) (fun _ _ => rfl) fun p _ _ _ _ hsound => ?_
      obtain rfl : _ = p := hsound
      refine ⟨rfl, ?_⟩
      by_contra hk
      have hkept := h.kept _ (Option.isSome_iff_ne_none.mpr hk)
      rw [hf] at hkept
      cases hkept
    | read path =>
      refine ⟨h.possible, h.kept, by simpa using h.spawned, h.results, hcount', ?_⟩
      refine h.sound_set hi (fun _ hf => hf) (fun _ _ => rfl) fun p _ _ _ _ hsound => ?_
      obtain ⟨rfl, hk⟩ := hsound
      exact ⟨rfl, hk, rfl⟩
    | record path tags =>
      obtain ⟨p, hp, result, rfl, hk, rfl⟩ := h.sound_at hi
      obtain ⟨hpossible, hgrow, hself⟩ := h.insert hp hk
      refine ⟨hpossible, fun q hq => hgrow q (h.kept q hq), by simpa using h.spawned, h.results, hcount', ?_⟩
      refine h.sound_set hi hgrow (fun _ _ => rfl) fun q _ _ _ _ hsound => ?_
      obtain ⟨rfl, -, -⟩ := hsound
      exact ⟨.inr ⟨hk, _, hp, rfl, rfl⟩, hself⟩
  | @release i tags hi =>
    have hcount := countP_running_set hi (.finished tags)
    have hpermits := h.permits
    refine ⟨h.possible, h.kept, by simpa using h.spawned, h.results, ?_, ?_⟩
    · simp only [Task.isRunning, if_true, Bool.false_eq_true, if_false] at hcount ⊢
      omega
    · exact h.sound_set hi (fun _ hf => hf) (fun _ _ => rfl) fun _ _ _ _ _ hsound => hsound
  | @collect i tags hi hu =>
    have hcount := countP_running_set hi .collected
    have hpermits := h.permits
    refine ⟨h.possible, h.kept, by simpa using h.spawned, by simpa using h.results, ?_, ?_⟩
    · simp only [Task.isRunning, Bool.false_eq_true, if_false] at hcount ⊢
      omega
    · refine h.sound_set hi (fun _ hf => hf) (fun j hj => List.getElem?_set_ne (Ne.symm hj)) ?_
      intro p _ after _ hr hsound
      obtain ⟨hlt, -⟩ := List.getElem?_eq_some_iff.mp hr
      rw [List.length_set] at hlt
      rw [List.getElem?_set_self hlt] at hr
      cases hr
      exact hsound

theorem Invariant.reaches (h : Invariant t k paths limit b)
    (hr : Relation.ReflTransGen (Step t) b c) : Invariant t k paths limit c := by
  induction hr with
  | refl => exact h
  | tail _ hs ih => exact ih.step hs

theorem isComplete_iff {b : Batch} :
    b.isComplete ↔ b.unspawned = [] ∧ ∀ task ∈ b.tasks, task = .collected := by
  simp [isComplete]

theorem exists_step_of_running {i : Nat} {r : Request} (hi : b.tasks[i]? = some (.running r)) :
    ∃ c, Step t b c := by
  by_cases hd : ∃ tags, r = .done tags
  · obtain ⟨tags, rfl⟩ := hd
    exact ⟨_, .release hi⟩
  · have hr : ∀ tags, r ≠ .done tags := fun tags he => hd ⟨tags, he⟩
    exact ⟨_, .request hi (Request.step_outcome t hr b.known).1⟩

/-- With one permit at least no batch is ever stuck. -/
theorem Invariant.exists_step (h : Invariant t k paths limit b) (hl : 0 < limit)
    (hc : b.isComplete = false) : ∃ c, Step t b c := by
  cases hu : b.unspawned with
  | cons path rest => exact ⟨_, .spawn hu⟩
  | nil =>
    have hopen : ∃ task ∈ b.tasks, task ≠ .collected := by
      by_contra hnone
      push Not at hnone
      have hcomplete := isComplete_iff.mpr ⟨hu, hnone⟩
      rw [hc] at hcomplete
      cases hcomplete
    obtain ⟨task, hmem, hne⟩ := hopen
    obtain ⟨i, hi⟩ := List.getElem?_of_mem hmem
    cases task with
    | waiting path =>
      by_cases hp : b.permits = 0
      · -- All permits are held, so one of their holders can go on.
        have hpermits := h.permits
        have hcount : 0 < b.tasks.countP Task.isRunning := by omega
        obtain ⟨other, hother, hrunning⟩ := List.countP_pos_iff.mp hcount
        obtain ⟨j, hj⟩ := List.getElem?_of_mem hother
        cases other with
        | running r => exact exists_step_of_running hj
        | _ => cases hrunning
      · exact ⟨_, .acquire hi hp⟩
    | running r => exact exists_step_of_running hi
    | finished tags => exact ⟨_, .collect hi hu⟩
    | collected => exact (hne rfl).elim

theorem remaining_of_isComplete (hc : b.isComplete) : b.remaining = 0 := by
  obtain ⟨hu, htasks⟩ := isComplete_iff.mp hc
  have hsum : (b.tasks.map Task.remaining).sum = 0 := by
    apply List.sum_eq_zero
    intro n hn
    obtain ⟨task, ht, rfl⟩ := List.mem_map.mp hn
    rw [htasks task ht]
    rfl
  rw [remaining, hu, hsum]
  rfl

theorem Invariant.exists_move_iff (h : Invariant t k paths limit b) (hl : 0 < limit) :
    (∃ move c, (b.move move : StateM FileTree (Option Batch)).run t = (some c, t)) ↔
      b.isComplete = false := by
  constructor
  · rintro ⟨move, c, hm⟩
    have hlt := (step_of_move hm).1.remaining_lt
    by_contra hc
    have hzero := remaining_of_isComplete (by simpa using hc)
    omega
  · intro hc
    obtain ⟨c, hs⟩ := h.exists_step hl hc
    obtain ⟨move, hm⟩ := move_of_step hs
    exact ⟨move, c, hm⟩

/-- At the end every listed path has tags that it may be given, and is known. -/
theorem Invariant.result (h : Invariant t k paths limit b) (hc : b.isComplete) {i : Nat}
    {path : String} (hi : paths[i]? = some path) :
    ∃ tags, b.results[i]? = some tags ∧ Possible t k paths path tags ∧
      (b.known.find? path).isSome := by
  obtain ⟨hu, htasks⟩ := isComplete_iff.mp hc
  obtain ⟨hlt, -⟩ := List.getElem?_eq_some_iff.mp hi
  have hlen := h.length_tasks
  rw [hu, List.length_nil, Nat.add_zero] at hlen
  have hresult : i < b.results.length := h.results ▸ hlt
  have htask : i < b.tasks.length := hlen ▸ hlt
  have hcollected : b.tasks[i]? = some .collected := by
    rw [List.getElem?_eq_getElem htask, htasks _ (List.getElem_mem htask)]
  exact ⟨_, List.getElem?_eq_getElem hresult,
    h.sound i path _ _ hi (List.getElem?_eq_getElem hresult) hcollected⟩

/-- Listed paths that are the same are the same to the files. -/
def Agree (t : FileTree) (k : KnownTags) (paths : List String) : Prop :=
  ∀ p ∈ paths, ∀ q ∈ paths, pathKey p = pathKey q → tagsIn t k p = tagsIn t k q

theorem Possible.eq_of_agree {path : String} {tags : List Tag} (h : Possible t k paths path tags)
    (ha : Agree t k paths) (hp : path ∈ paths) : tags = tagsIn t k path := by
  rcases h with hk | ⟨hk, other, hother, hkey, hread⟩
  · rw [tagsIn, hk, Option.getD_some]
  · have hsame := ha path hp other hother hkey.symm
    have hnone : k.find? other = none := (k.find?_congr hkey).trans hk
    rw [hsame, tagsIn, hnone, Option.getD_none, hread]

/-- The answers that each path would have on its own, and the known tags that go with them. -/
structure Answers (t : FileTree) (k : KnownTags) (paths : List String) (b : Batch) : Prop where
  results : b.results = paths.map (tagsIn t k)
  requested : ∀ path ∈ paths, b.known.find? path = some (tagsIn t k path)
  others : ∀ other, (∀ path ∈ paths, pathKey path ≠ pathKey other) →
    b.known.find? other = k.find? other

theorem Invariant.answers (h : Invariant t k paths limit b) (hc : b.isComplete)
    (ha : Agree t k paths) : Answers t k paths b where
  results := by
    apply List.ext_getElem?
    intro i
    rw [List.getElem?_map]
    cases hi : paths[i]? with
    | none =>
      have hlen := List.getElem?_eq_none_iff.mp hi
      exact List.getElem?_eq_none_iff.mpr (h.results ▸ hlen)
    | some path =>
      obtain ⟨tags, htags, hpossible, -⟩ := h.result hc hi
      rw [htags, hpossible.eq_of_agree ha (List.mem_of_getElem? hi)]
      rfl
  requested path hp := by
    obtain ⟨i, hi⟩ := List.getElem?_of_mem hp
    obtain ⟨-, -, -, hsome⟩ := h.result hc hi
    obtain ⟨tags, htags⟩ := Option.isSome_iff_exists.mp hsome
    rw [htags, (h.possible path tags htags).eq_of_agree ha hp]
  others other hother := by
    cases hf : b.known.find? other with
    | none =>
      cases hk : k.find? other with
      | none => rfl
      | some tags =>
        have hkept := h.kept other (Option.isSome_of_eq_some hk)
        rw [hf] at hkept
        cases hkept
    | some tags =>
      rcases h.possible other tags hf with hk | ⟨-, path, hp, hkey, -⟩
      · exact hk.symm
      · exact (hother path hp hkey).elim

/-- All tasks may be spawned before the first of them begins. -/
theorem reaches_spawned (t : FileTree) (known : KnownTags) (permits : Nat) (ps : List String)
    (tasks : List Task) (results : List (List Tag)) :
    Relation.ReflTransGen (Step t) ⟨known, permits, ps, tasks, results⟩
      ⟨known, permits, [], tasks ++ ps.map .waiting, results⟩ := by
  induction ps generalizing tasks with
  | nil =>
    rw [List.map_nil, List.append_nil]
  | cons p ps ih =>
    have hrest := ih (tasks ++ [.waiting p])
    rw [List.append_assoc, List.singleton_append] at hrest
    exact .head (.spawn rfl) hrest

section

variable (t : FileTree) {before after : List Task}

theorem getElem?_middle (task : Task) :
    (before ++ task :: after)[before.length]? = some task := by
  rw [List.getElem?_append_right le_rfl, Nat.sub_self]
  rfl

theorem set_middle {α : Type} (before after : List α) (old new : α) :
    (before ++ old :: after).set before.length new = before ++ new :: after := by
  rw [List.set_append_right _ _ le_rfl, Nat.sub_self]
  rfl

theorem step_request {r s : Request} {k l : KnownTags} (permits : Nat) (results : List (List Tag))
    (h : r.Step t k s l) :
    Step t ⟨k, permits, [], before ++ .running r :: after, results⟩
      ⟨l, permits, [], before ++ .running s :: after, results⟩ := by
  have hs := Step.request (b := ⟨k, permits, [], before ++ .running r :: after, results⟩)
    (getElem?_middle _) h
  rwa [set_middle] at hs

/-- A request that is alone goes through with what it learns. -/
theorem reaches_done (known : KnownTags) (permits : Nat) (path : String)
    (results : List (List Tag)) :
    Relation.ReflTransGen (Step t)
      ⟨known, permits, [], before ++ .running (.lookUp path) :: after, results⟩
      ⟨learn t known path, permits, [], before ++ .running (.done (tagsIn t known path)) :: after,
        results⟩ := by
  cases hf : known.find? path with
  | none =>
    rw [learn, tagsIn, hf]
    exact .head (step_request t permits results (.missed hf))
      (.head (step_request t permits results (.read known path))
        (.single (step_request t permits results (.record known path _))))
  | some tags =>
    rw [learn, tagsIn, hf]
    exact .single (step_request t permits results (.found hf))

/-- A task may go from its beginning to its end while the others stand still. -/
theorem reaches_collected (known : KnownTags) {permits : Nat} (hp : permits ≠ 0) (path : String)
    (after : List Task) {done : List (List Tag)} (r : List Tag) (more : List (List Tag))
    (hlen : before.length = done.length) :
    Relation.ReflTransGen (Step t)
      ⟨known, permits, [], before ++ .waiting path :: after, done ++ r :: more⟩
      ⟨learn t known path, permits, [], before ++ .collected :: after,
        done ++ tagsIn t known path :: more⟩ := by
  have hacquire : Step t ⟨known, permits, [], before ++ .waiting path :: after, done ++ r :: more⟩
      ⟨known, permits - 1, [], before ++ .running (.lookUp path) :: after, done ++ r :: more⟩ := by
    have hs := Step.acquire (t := t)
      (b := ⟨known, permits, [], before ++ .waiting path :: after, done ++ r :: more⟩)
      (getElem?_middle _) hp
    rwa [set_middle] at hs
  have hrelease : ∀ (k : KnownTags) (tags : List Tag),
      Step t ⟨k, permits - 1, [], before ++ .running (.done tags) :: after, done ++ r :: more⟩
        ⟨k, permits, [], before ++ .finished tags :: after, done ++ r :: more⟩ := by
    intro k tags
    have hs := Step.release (t := t)
      (b := ⟨k, permits - 1, [], before ++ .running (.done tags) :: after, done ++ r :: more⟩)
      (getElem?_middle _)
    rw [set_middle] at hs
    have hback : permits - 1 + 1 = permits := by omega
    exact hback ▸ hs
  have hcollect : ∀ (k : KnownTags) (tags : List Tag),
      Step t ⟨k, permits, [], before ++ .finished tags :: after, done ++ r :: more⟩
        ⟨k, permits, [], before ++ .collected :: after, done ++ tags :: more⟩ := by
    intro k tags
    have hs := Step.collect (t := t)
      (b := ⟨k, permits, [], before ++ .finished tags :: after, done ++ r :: more⟩)
      (getElem?_middle _) rfl
    rw [set_middle] at hs
    have hset : (done ++ r :: more).set before.length tags = done ++ tags :: more := by
      rw [hlen, set_middle]
    exact hset ▸ hs
  exact .head hacquire ((reaches_done t known (permits - 1) path _).trans
    (.head (hrelease _ _) (.single (hcollect _ _))))

/-- One of the runs of a batch takes its paths one after another. -/
theorem reaches_in_order (known : KnownTags) {permits : Nat} (hp : permits ≠ 0) (ps : List String)
    {done : List (List Tag)} (hlen : before.length = done.length) :
    Relation.ReflTransGen (Step t)
      ⟨known, permits, [], before ++ ps.map .waiting, done ++ ps.map fun _ => []⟩
      ⟨learnAll t known ps, permits, [], before ++ ps.map fun _ => .collected,
        done ++ ps.map (tagsIn t (learnAll t known ps))⟩ := by
  induction ps generalizing known before done with
  | nil => exact .refl
  | cons p ps ih =>
    have hfirst := reaches_collected t known hp p (ps.map .waiting) [] (ps.map fun _ => []) hlen
    have hlen' : (before ++ [Task.collected]).length = (done ++ [tagsIn t known p]).length := by
      rw [List.length_append, List.length_append, hlen]
      rfl
    have hrest := ih (learn t known p) hlen'
    have hhead : tagsIn t (learnAll t known (p :: ps)) p = tagsIn t known p :=
      tagsIn_learnAll p ps (find?_learn_self p)
    simp only [List.append_assoc, List.singleton_append] at hrest
    rw [List.map_cons, List.map_cons, List.map_cons, List.map_cons, hhead]
    exact hfirst.trans hrest

end

/-- The batches that some moves lead to. -/
def Reachable (t : FileTree) (b c : Batch) : Prop :=
  ∃ moves, (b.run moves : StateM FileTree (Option Batch)).run t = (some c, t)

theorem Reachable.invariant (h : Reachable t (start k limit paths) b) :
    Invariant t k paths limit b := by
  obtain ⟨moves, hrun⟩ := h
  exact invariant_start.reaches (reaches_of_run hrun).1

theorem exists_reachable_in_order (t : FileTree) (k : KnownTags) (paths : List String)
    (hl : 0 < limit) :
    ∃ b, Reachable t (start k limit paths) b ∧ b.isComplete ∧
      b.results = paths.map (tagsIn t (learnAll t k paths)) ∧ b.known = learnAll t k paths := by
  have hspawned := reaches_spawned t k limit paths [] (paths.map fun _ => [])
  have hnone : ([] : List Task).length = ([] : List (List Tag)).length := rfl
  have horder := reaches_in_order t k (Nat.pos_iff_ne_zero.mp hl) paths hnone
  refine ⟨_, run_of_reaches (hspawned.trans horder), ?_, rfl, rfl⟩
  rw [isComplete_iff]
  simp

/-- A path that is written in one way only is read in one way. -/
theorem agree_of_unique (h : ∀ p ∈ paths, ∀ q ∈ paths, pathKey p = pathKey q → p = q) :
    Agree t k paths := by
  intro p hp q hq hkey
  rw [h p hp q hq hkey]

end Results

/-- What a batch knows at the end is what reading one path after another leaves. -/
theorem Answers.sequential {t : FileTree} {k : KnownTags} {paths : List String} {b c : Batch}
    (hb : Answers t k paths b) (hc : Answers t k paths c)
    (hresults : c.results = paths.map (tagsIn t (learnAll t k paths)))
    (hknown : c.known = learnAll t k paths) :
    outcome (readAllTags paths) k t = ((b.results, learnAll t k paths), t) ∧
      ∀ path, (learnAll t k paths).find? path = b.known.find? path := by
  constructor
  · rw [outcome_readAllTags, ← hresults, hc.results, hb.results]
  · intro path
    rw [← hknown]
    by_cases hlisted : ∃ p ∈ paths, pathKey p = pathKey path
    · obtain ⟨p, hp, hkey⟩ := hlisted
      rw [← c.known.find?_congr hkey, ← b.known.find?_congr hkey, hc.requested p hp,
        hb.requested p hp]
    · have hother : ∀ p ∈ paths, pathKey p ≠ pathKey path := fun p hp hkey =>
        hlisted ⟨p, hp, hkey⟩
      rw [hc.others path hother, hb.others path hother]

/-- Every run of a batch comes to an end, and it ends only when all results are in. A result is what was
known of its path, or else what was read from a listed path that is the same. Paths are the same by
their components, and a file may be read under one spelling and not under another one: exactly where
the listed spellings agree, every run has the answers of reading each path on its own, and these are
those of reading one path after another. -/
theorem answers_iff_agree (t : FileTree) (k : KnownTags) (paths : List String) {limit : Nat}
    (hl : 0 < limit) :
    (∀ moves b u, ((start k limit paths).run moves : StateM FileTree (Option Batch)).run t =
      (some b, u) → u = t ∧ moves.length ≤ 7 * paths.length) ∧
    (∀ b, Reachable t (start k limit paths) b →
      ((∃ move c, (b.move move : StateM FileTree (Option Batch)).run t = (some c, t)) ↔
        b.isComplete = false)) ∧
    (∀ b, Reachable t (start k limit paths) b → b.isComplete →
      ∀ (i : Nat) path, paths[i]? = some path → ∃ tags, b.results[i]? = some tags ∧
        Possible t k paths path tags) ∧
    ((∀ b, Reachable t (start k limit paths) b → b.isComplete → Answers t k paths b) ↔
      Agree t k paths) ∧
    (Agree t k paths → ∀ b, Reachable t (start k limit paths) b → b.isComplete →
      ∃ known, outcome (readAllTags paths) k t = ((b.results, known), t) ∧
        ∀ path, known.find? path = b.known.find? path) := by
  obtain ⟨c, hreach, hcomplete, hresults, hknown⟩ := exists_reachable_in_order t k paths hl
  refine ⟨?_, ?_, ?_, ⟨?_, ?_⟩, ?_⟩
  · intro moves b u hrun
    obtain ⟨-, hu, hlen⟩ := reaches_of_run hrun
    have hstart : (start k limit paths).remaining = 7 * paths.length := rfl
    exact ⟨hu, by omega⟩
  · exact fun b hb => hb.invariant.exists_move_iff hl
  · intro b hb hc i path hi
    obtain ⟨tags, htags, hpossible, -⟩ := hb.invariant.result hc hi
    exact ⟨tags, htags, hpossible⟩
  · -- The run in order gives the same tags to paths that are the same.
    intro hall p hp q hq hkey
    have hmap := (hall c hreach hcomplete).results.symm.trans hresults
    have hone : ∀ path ∈ paths, tagsIn t k path = tagsIn t (learnAll t k paths) path :=
      List.map_inj_left.mp hmap
    obtain ⟨tags, hfound⟩ := exists_find?_learnAll (t := t) (k := k) hp
    have hfound' := ((learnAll t k paths).find?_congr hkey).symm.trans hfound
    rw [hone p hp, hone q hq, tagsIn, tagsIn, hfound, hfound', Option.getD_some, Option.getD_some]
  · exact fun ha b hb hc => hb.invariant.answers hc ha
  · intro ha b hb hc
    have hanswers := hb.invariant.answers hc ha
    have horder := hreach.invariant.answers hcomplete ha
    exact ⟨_, hanswers.sequential horder hresults hknown⟩

theorem answers_iff_agree_duplicates :
    let t : FileTree := ⟨[(["a"], .file (some "@A\n@B\nFeature: f\n"))]⟩
    let k : KnownTags := ⟨[([['b']], ["@K"])]⟩
    let paths := ["a", "b", "x", "a"]
    Agree t k paths ∧ ∀ b, Reachable t (start k 2 paths) b → b.isComplete →
      b.results = [["@A", "@B"], ["@K"], [], ["@A", "@B"]] ∧ b.known.find? "./a" = none := by
  intro t k paths
  have hagree : Agree t k paths := agree_of_unique (by decide)
  obtain ⟨-, -, -, hiff, -⟩ := answers_iff_agree t k paths (show 0 < 2 by decide)
  refine ⟨hagree, fun b hb hc => ?_⟩
  have h := hiff.mpr hagree b hb hc
  have hmap : paths.map (tagsIn t k) = [["@A", "@B"], ["@K"], [], ["@A", "@B"]] := by decide +kernel
  exact ⟨h.results.trans hmap, h.others "./a" (by decide)⟩

/-- With a separator at its end the path of a file is the same path and cannot be read. -/
theorem answers_differ :
    let t : FileTree := ⟨[(["a.feature"], .file (some "@A\nFeature: a\n"))]⟩
    let paths := ["a.feature", "a.feature/"]
    let moves : List Move := [.spawn, .spawn, .advance 0, .advance 0, .advance 0, .advance 0,
      .advance 0, .advance 0, .advance 1, .advance 1, .advance 1, .advance 1]
    ∃ b, ((start {} 1 paths).run moves : StateM FileTree (Option Batch)).run t = (some b, t) ∧
      b.isComplete ∧ b.results = [["@A"], ["@A"]] ∧
      paths.map (tagsIn t {}) = [["@A"], []] := by
  intro t paths moves
  refine ⟨⟨⟨[(["a.feature".toList], ["@A"])]⟩, 1, [], [.collected, .collected], [["@A"], ["@A"]]⟩, ?_, ?_, ?_, ?_⟩
  · change @Eq (Option Batch × FileTree) _ _
    decide +kernel
  · rfl
  · rfl
  · decide +kernel

end Batch

end SuitePlan
