import SuitePlan.Storage

/-! A tree of files in memory, on which the file operations are functions. -/

namespace SuitePlan

/-- A file whose bytes are not a text has no content here. -/
inductive Node where
  | file (content : Option String)
  | dir
deriving DecidableEq, Repr

/-- A place in the tree: the names on the way to it from the working directory, after `..` for each
directory above, or from the root after `/`. -/
abbrev Location := List String

structure FileTree where
  entries : List (Location × Node) := []
deriving DecidableEq, Repr

namespace FileTree

/-- The node at a place. The working directory, the ones above it and the root always exist. -/
def node? (t : FileTree) (l : Location) : Option Node :=
  if l = ["/"] || l.all (· = "..") then some .dir else t.entries.lookup l

def put (t : FileTree) (l : Location) (n : Node) : FileTree :=
  ⟨(l, n) :: t.entries.filter (·.1 ≠ l)⟩

/-- Removes a node with everything below it. -/
def erase (t : FileTree) (l : Location) : FileTree :=
  ⟨t.entries.filter fun (k, _) => !l.isPrefixOf k⟩

def above (l : Location) : Location :=
  if l = ["/"] then l else if l.all (· = "..") then l ++ [".."] else l.dropLast

/-- The longest name of a file in bytes. -/
def nameLimit : Nat := 255

/-- The place a path leads to from a directory. All but the last step have to exist. -/
def walk (t : FileTree) (l : Location) : List String → Except StorageError Location
  | [] => .ok l
  | step :: steps =>
    if step = "" || step = "." then walk t l steps
    else if step = ".." then walk t (above l) steps
    else if nameLimit < step.utf8ByteSize then .error .other
    else
      let here := l ++ [step]
      match t.node? here with
      | some .dir => walk t here steps
      | some (.file _) => if steps.isEmpty then .ok here else .error .other
      | none => if steps.isEmpty then .ok here else .error .notFound

/-- The longest path in bytes. -/
def pathLimit : Nat := 4095

def locate (t : FileTree) (path : String) : Except StorageError Location :=
  if path.isEmpty then .error .notFound
  else if '\x00' ∈ path.toList ∨ pathLimit < path.utf8ByteSize then .error .other
  else
    let steps := (Path.stretches path.toList).map String.ofList
    t.walk (if path.toList.head? = some '/' then ["/"] else []) steps

def read (t : FileTree) (path : String) : Except StorageError String := do
  match t.node? (← t.locate path) with
  | some (.file (some content)) => .ok content
  | some (.file none) => .error .notText
  | some .dir => .error .other
  | none => .error .notFound

/-- The path without the separators at its end. -/
def withoutSlash (path : String) : String :=
  String.ofList (path.toList.reverse.dropWhile (· = '/')).reverse

def write (t : FileTree) (path content : String) : Except StorageError FileTree := do
  let l ← t.locate (if path = "/" then path else withoutSlash path)
  if path.toList.getLast? = some '/' ∨ t.node? l = some .dir then .error .other
  else .ok (t.put l (.file (some content)))

def makeDir (t : FileTree) (path : String) : Except StorageError FileTree := do
  let l ← t.locate (if path.toList.head? = some '/' then path else withoutSlash path)
  match t.node? l with
  | some _ => .error .other
  | none => .ok (t.put l .dir)

def isDir (t : FileTree) (path : String) : Bool :=
  match t.locate path with
  | .ok l => t.node? l = some .dir
  | .error _ => false

def remove (t : FileTree) (path : String) : Except StorageError FileTree := do
  let l ← t.locate path
  match t.node? l with
  | some (.file _) => .ok (t.erase l)
  | some .dir => .error .other
  | none => .error .notFound

/-- Runs an operation that changes the tree unless it fails. -/
def change (f : FileTree → Except StorageError FileTree) :
    StateM FileTree (Except StorageError Unit) := fun t =>
  match f t with
  | .ok u => (.ok (), u)
  | .error e => (.error e, t)

instance : Storage (StateM FileTree) where
  read path := fun t => (t.read path, t)
  write path content := change (·.write path content)
  makeDir path := change (·.makeDir path)
  isDir path := fun t => (t.isDir path, t)
  remove path := change (·.remove path)

/-- Puts a node at a place, with directories on the way to it. -/
def plant (t : FileTree) (l : Location) (n : Node) : FileTree :=
  let dirs := ((List.range l.length).map fun k => l.take k).filter fun k => (t.node? k).isNone
  (dirs.foldl (fun t k => t.put k .dir) t).put l n

end FileTree

end SuitePlan
