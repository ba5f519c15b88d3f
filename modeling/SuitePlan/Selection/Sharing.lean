import SuitePlan.FileTree
import SuitePlan.Selection.Batch

/-! Requests and batches that share what is known. Which of them takes the next step is left open, and
the files may change before every step. -/

namespace SuitePlan

structure Sharing where
  known : KnownTags
  files : FileTree
  requests : List Request
  batches : List Batch
deriving DecidableEq, Repr

/-- What happens next: a request or a batch begins, one of them goes on, the files become others, or
everything known is dropped. -/
inductive Event where
  | ask (path : String)
  | askAll (limit : Nat) (paths : List String)
  | proceed (i : Nat)
  | move (j : Nat) (move : Move)
  | change (files : FileTree)
  | clear
deriving DecidableEq, Repr

namespace Sharing

def start (files : FileTree) : Sharing := ⟨{}, files, [], []⟩

def proceed (s : Sharing) (i : Nat) : Option Sharing :=
  match s.requests[i]? with
  | none => none
  | some request =>
    let ((next, known), files) := (request.step.run s.known : StateM FileTree _).run s.files
    some { s with known := known, files := files, requests := s.requests.set i next }

/-- A batch moves with what is known by then. -/
def move (s : Sharing) (j : Nat) (move : Move) : Option Sharing :=
  match s.batches[j]? with
  | none => none
  | some batch =>
    match (({ batch with known := s.known } : Batch).move move : StateM FileTree _).run s.files with
    | (none, _) => none
    | (some next, files) =>
      some { s with known := next.known, files := files, batches := s.batches.set j next }

def step (s : Sharing) : Event → Option Sharing
  | .ask path => some { s with requests := s.requests ++ [.lookUp path] }
  | .askAll limit paths => some { s with batches := s.batches ++ [.start s.known limit paths] }
  | .proceed i => s.proceed i
  | .move j move => s.move j move
  | .change files => some { s with files := files }
  | .clear => some { s with known := {} }

/-- What comes of some events, all of which have to be possible. -/
def run (s : Sharing) : List Event → Option Sharing
  | [] => some s
  | event :: events => (s.step event).bind (·.run events)

end Sharing

end SuitePlan
