/-! Weight tables: for a suffix of spec paths the measured time and the weight derived from it. -/

namespace SuitePlan

structure Weighing (W : Type) where
  time : Option W := none
  weight : Option W := none
deriving DecidableEq, Repr

def Weighing.map {V W : Type} (f : W → V) (e : Weighing W) : Weighing V :=
  ⟨e.time.map f, e.weight.map f⟩

/-- A table in the order in which its keys were first inserted. -/
structure Weights (W : Type) where
  entries : List (String × Weighing W) := []
deriving DecidableEq, Repr

namespace Weights

variable {W : Type}

def insertEntry (key : String) (e : Weighing W) :
    List (String × Weighing W) → List (String × Weighing W)
  | [] => [(key, e)]
  | (k, old) :: rest => if k = key then (k, e) :: rest else (k, old) :: insertEntry key e rest

/-- Inserts or replaces an entry. A key that is there already keeps its place. -/
def insert (t : Weights W) (key : String) (e : Weighing W) : Weights W :=
  ⟨insertEntry key e t.entries⟩

def get? (t : Weights W) (key : String) : Option (Weighing W) := t.entries.lookup key

def keys (t : Weights W) : List String := t.entries.map (·.1)

def size (t : Weights W) : Nat := t.entries.length

def ofList (entries : List (String × Weighing W)) : Weights W :=
  entries.foldl (fun t (k, e) => t.insert k e) {}

/-- The table with its times and weights under a map. -/
def map {V : Type} (f : W → V) (t : Weights W) : Weights V :=
  ⟨t.entries.map fun e => (e.1, e.2.map f)⟩

/-- Lays `other` over the table. Its entries take precedence. -/
def merge (t other : Weights W) : Weights W :=
  other.entries.foldl (fun t (k, e) => t.insert k e) t

end Weights

end SuitePlan
