import SuitePlan.Text.Blank

/-! Paths as texts. Repeated and final separators and dots inside a path do not matter when paths
are compared, but they are kept where a path is shown. -/

namespace SuitePlan

namespace Path

/-- The separator that a path begins with, or the dot of a relative one, and what follows. -/
def lead : List Char → List Char × List Char
  | '/' :: r => (['/'], r)
  | ['.'] => (['.'], [])
  | '.' :: '/' :: r => (['.'], '/' :: r)
  | s => ([], s)

def isName (p : List Char) : Bool := !p.isEmpty && p ≠ ['.']

/-- The stretches between separators. -/
def stretches (s : List Char) : List (List Char) := pieces (· = '/') s

def join (ps : List (List Char)) : List Char := List.intercalate ['/'] ps

/-- What a path consists of: the lead, if there is one, and the names. -/
def components (s : List Char) : List (List Char) :=
  let (l, body) := lead s
  if l.isEmpty then (stretches body).filter isName else l :: (stretches body).filter isName

def same (a b : String) : Bool := components a.toList == components b.toList

def dropStart (ps : List (List Char)) : List (List Char) := ps.dropWhile (!isName ·)

def dropEnd (ps : List (List Char)) : List (List Char) := (dropStart ps.reverse).reverse

/-- Drops the first `k` names with what stands around them. -/
def dropNames : Nat → List (List Char) → List (List Char)
  | 0, ps => dropStart ps
  | k + 1, ps => dropNames k ((dropStart ps).drop 1)

/-- The path without separators and dots at its end. -/
def trimmed (s : List Char) : List Char :=
  let (l, body) := lead s
  l ++ join (dropEnd (stretches body))

/-- The part of a path below a base directory, or the path itself if it is not there. -/
def relativeTo (base path : List Char) : List Char :=
  let above := components base
  if above.isPrefixOf (components path) then
    let (l, body) := lead path
    if above.isEmpty then trimmed path
    else join (dropEnd (dropNames (above.length - (if l.isEmpty then 0 else 1)) (stretches body)))
  else path

/-- The path without its last component. The root and the empty path have no parent. -/
def parent? (s : List Char) : Option (List Char) :=
  let (l, body) := lead s
  match (dropEnd (stretches body)).reverse with
  | _ :: before => some (l ++ join (dropEnd before.reverse))
  | [] => if l = ['.'] then some [] else none

/-- The path of a file in a directory. -/
def child (dir name : String) : String :=
  if dir.isEmpty || dir.toList.getLast? = some '/' then dir ++ name else dir ++ "/" ++ name

end Path

/-- The key under which a spec is recorded. -/
def specKey (base path : String) : String :=
  String.ofList (Path.relativeTo base.toList path.toList)

/-- Whether a path names a feature file. -/
def namesFeature (path : String) : Bool := ".feature".toList.isSuffixOf path.toList

end SuitePlan
