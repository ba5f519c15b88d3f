import SuitePlan.Selection.KnownTags

/-! Requests for the tags of several files at the same time. Every file has a task of its own, and only
so many tasks run at once. Which of them takes the next step is left open. -/

namespace SuitePlan

/-- The task for one file. It waits for a permit, holds it until its request is done, and is collected
at the end. -/
inductive Task where
  | waiting (path : String)
  | running (request : Request)
  | finished (tags : List Tag)
  | collected
deriving DecidableEq, Repr

/-- Tasks and results stand in the order of the files. -/
structure Batch where
  known : KnownTags
  permits : Nat
  unspawned : List String
  tasks : List Task
  results : List (List Tag)
deriving DecidableEq, Repr

/-- What happens next: another task is spawned, or the one at a place goes on. -/
inductive Move where
  | spawn
  | advance (i : Nat)
deriving DecidableEq, Repr

namespace Batch

def start (known : KnownTags) (limit : Nat) (paths : List String) : Batch :=
  ⟨known, limit, paths, [], paths.map fun _ => []⟩

/-- Everything has been spawned and collected. -/
def isComplete (b : Batch) : Bool := b.unspawned.isEmpty && b.tasks.all (· = .collected)

variable {m : Type → Type} [Monad m] [Storage m]

/-- The next step of the task at a place, if it can take one. Nothing is collected before all tasks
are spawned. -/
def advance (b : Batch) (i : Nat) : Task → m (Option Batch)
  | .waiting path =>
    if b.permits = 0 then pure none
    else pure (some { b with
      permits := b.permits - 1
      tasks := b.tasks.set i (.running (.lookUp path)) })
  | .running (.done tags) =>
    pure (some { b with
      permits := b.permits + 1
      tasks := b.tasks.set i (.finished tags) })
  | .running request => do
    let (next, known) ← request.step.run b.known
    pure (some { b with
      known := known
      tasks := b.tasks.set i (.running next) })
  | .finished tags =>
    if b.unspawned = [] then
      pure (some { b with
        tasks := b.tasks.set i .collected
        results := b.results.set i tags })
    else pure none
  | .collected => pure none

def move (b : Batch) : Move → m (Option Batch)
  | .spawn =>
    match b.unspawned with
    | [] => pure none
    | path :: paths =>
      pure (some { b with
        unspawned := paths
        tasks := b.tasks ++ [.waiting path] })
  | .advance i =>
    match b.tasks[i]? with
    | some task => b.advance i task
    | none => pure none

/-- Makes some moves, all of which have to be possible. -/
def run (b : Batch) : List Move → m (Option Batch)
  | [] => pure (some b)
  | move :: moves => do
    match ← b.move move with
    | some next => next.run moves
    | none => pure none

end Batch

variable {m : Type → Type} [Monad m] [Storage m]

/-- The tags of all files, as one order of steps gives them. That order has to be possible, and all has
to be collected at its end. -/
def readScheduled (limit : Nat) (moves : List Move) (paths : List String) :
    OptionT (StateT KnownTags m) (List (List Tag)) := OptionT.mk do
  let known ← get
  match ← ((Batch.start known limit paths).run moves : m (Option Batch)) with
  | some b =>
    if b.isComplete then
      set b.known
      pure (some b.results)
    else pure none
  | none => pure none

end SuitePlan
