import SuitePlan.Path

/-! Access to files, for programs that run on a disk as well as on a tree of files in memory. -/

namespace SuitePlan

inductive StorageError where
  | notFound
  | notText
  | other
deriving DecidableEq, Repr

/-- The operations on files that planning needs. -/
class Storage (m : Type → Type) where
  read : String → m (Except StorageError String)
  write : String → String → m (Except StorageError Unit)
  makeDir : String → m (Except StorageError Unit)
  isDir : String → m Bool
  remove : String → m (Except StorageError Unit)

namespace Storage

variable {m : Type → Type} [Monad m] [Storage m]

/-- Makes the first of several directories, each of which lies in the next one. Directories that are
there already are left alone. -/
def makeDirs : List String → m (Except StorageError Unit)
  | [] => pure (.ok ())
  | dir :: above => do
    match ← makeDir dir with
    | .ok () => pure (.ok ())
    | .error .notFound =>
      match ← makeDirs above with
      | .error e => pure (.error e)
      | .ok () => settle dir (← makeDir dir)
    | .error e => settle dir (.error e)
where
  settle (dir : String) (r : Except StorageError Unit) : m (Except StorageError Unit) := do
    match r with
    | .ok () => pure (.ok ())
    | .error e => if ← isDir dir then pure (.ok ()) else pure (.error e)

/-- The directories a path lies in, the innermost first. -/
def directories (path : String) : List String :=
  (ancestors path.length path.toList).map String.ofList
where
  ancestors : Nat → List Char → List (List Char)
    | 0, _ => []
    | k + 1, s =>
      match Path.parent? s with
      | none => []
      | some p => if p.isEmpty then [] else p :: ancestors k p

/-- Writes a file and makes the directories it lies in. -/
def save (path content : String) : m (Except StorageError Unit) := do
  match ← makeDirs (m := m) (directories path) with
  | .error e => pure (.error e)
  | .ok () => write path content

end Storage

end SuitePlan
