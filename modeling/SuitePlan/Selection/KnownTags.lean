import SuitePlan.Selection.Header
import SuitePlan.Storage

/-! Tags of feature files that have been read, by path. A file whose tags are known is not read
again. -/

namespace SuitePlan

structure KnownTags where
  entries : List (List (List Char) × List Tag) := []
deriving DecidableEq, Repr

namespace KnownTags

def find? (k : KnownTags) (path : String) : Option (List Tag) :=
  k.entries.lookup (Path.components path.toList)

def insert (k : KnownTags) (path : String) (tags : List Tag) : KnownTags :=
  let key := Path.components path.toList
  ⟨(key, tags) :: k.entries.filter (·.1 ≠ key)⟩

def size (k : KnownTags) : Nat := k.entries.length

end KnownTags

/-- The tags of what was read. A file that cannot be read has none. -/
def tagsOfRead (content : Except StorageError String) : List Tag :=
  match content with
  | .ok s => declaredTags s
  | .error _ => []

/-- A request for the tags of a file. It looks up what is known, reads the file if that was in vain,
and records what it read. Other requests may come in between. -/
inductive Request where
  | lookUp (path : String)
  | read (path : String)
  | record (path : String) (tags : List Tag)
  | done (tags : List Tag)
deriving DecidableEq, Repr

namespace Request

variable {m : Type → Type} [Monad m] [Storage m]

/-- The next step of a request, and what is left of it. -/
def step (r : Request) : StateT KnownTags m Request := do
  match r with
  | lookUp path =>
    match (← get).find? path with
    | some tags => pure (done tags)
    | none => pure (read path)
  | read path =>
    let content ← (Storage.read path : m (Except StorageError String))
    pure (record path (tagsOfRead content))
  | record path tags =>
    modify (·.insert path tags)
    pure (done tags)
  | done tags => pure (done tags)

/-- Takes all steps, of which there are three at most. -/
def finish (r : Request) : StateT KnownTags m Request := do
  (← (← r.step).step).step

def answer : Request → List Tag
  | done tags => tags
  | _ => []

end Request

variable {m : Type → Type} [Monad m] [Storage m]

/-- The tags of a file. -/
def readTags (path : String) : StateT KnownTags m (List Tag) := do
  pure (← (Request.lookUp path).finish).answer

def readAllTags (paths : List String) : StateT KnownTags m (List (List Tag)) :=
  paths.mapM readTags

end SuitePlan
