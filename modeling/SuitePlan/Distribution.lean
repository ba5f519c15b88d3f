import SuitePlan.Decimal.Pattern
import SuitePlan.Json.Basic
import SuitePlan.Weight.Suffix

/-! Spreading specs over workers: the heaviest first, each to the worker with the least to do. -/

namespace SuitePlan

/-- Loads that can be added up and compared. Every two can be compared, and different ones may be
equal in the order. -/
class Load (W : Type) where
  zero : W
  add : W → W → W
  le : W → W → Bool
  le_trans : ∀ a b c, le a b → le b c → le a c
  le_total : ∀ a b, le a b || le b a

/-- A `Float` that is not a number has no sign and is above all others, so the loads of a run are patterns.
Where no weight is below zero, both give the same buckets. -/
instance : Load Float where
  zero := 0.0
  add := (· + ·)
  le := Binary64.le
  le_trans := Binary64.le_trans
  le_total := Binary64.le_total

instance : Load Pattern where
  zero := .ofFloat 0.0
  add := Pattern.add
  le := Pattern.le
  le_trans := Pattern.le_trans
  le_total := Pattern.le_total

/-- The specs of one worker in the order in which they were assigned, and the sum of their
weights. -/
structure Bucket (W : Type) where
  weight : W
  specs : List String
deriving DecidableEq, Repr

namespace Bucket

variable {W : Type} [Load W]

def empty : Bucket W := ⟨Load.zero, []⟩

/-- The bucket with its weight under a map. -/
def map {V : Type} (f : W → V) (b : Bucket W) : Bucket V := ⟨f b.weight, b.specs⟩

def assign (b : Bucket W) (spec : String) (weight : W) : Bucket W :=
  ⟨Load.add b.weight weight, b.specs ++ [spec]⟩

end Bucket

variable {W : Type} [Load W]

/-- Sorts by ascending weight. Equal weights keep their order. -/
def lightestFirst (bs : List (Bucket W)) : List (Bucket W) :=
  bs.mergeSort fun a b => Load.le a.weight b.weight

/-- Sorts by descending weight. Equal weights keep their order. -/
def heaviestFirst (bs : List (Bucket W)) : List (Bucket W) :=
  bs.mergeSort fun a b => Load.le b.weight a.weight

/-- Assigns a spec to the first of several buckets. -/
def assignFirst (spec : String × W) : List (Bucket W) → List (Bucket W)
  | [] => []
  | b :: bs => b.assign spec.1 spec.2 :: bs

def assignLightest (bs : List (Bucket W)) (spec : String × W) : List (Bucket W) :=
  assignFirst spec (lightestFirst bs)

/-- The specs in the order in which they are assigned. -/
def byWeight (specs : List (String × W)) : List (String × W) :=
  specs.mergeSort fun a b => Load.le b.2 a.2

/-- There is at least one bucket and none more than there are specs. -/
def bucketCount (workers specs : Nat) : Nat := min (max workers 1) specs

/-- The buckets for a list of weighted specs, by descending weight. -/
def spread (specs : List (String × W)) (workers : Nat) : List (Bucket W) :=
  heaviestFirst ((byWeight specs).foldl assignLightest
    (List.replicate (bucketCount workers specs.length) .empty))

/-- Pairs each spec with its weight. -/
def weigh (t : Weights W) (fallback : W) (r : KeyRule) (specs : List String) :
    List (String × W) :=
  specs.map fun s => (s, t.weightOf fallback r s)

def Bucket.toJson (b : Bucket Float) : Json :=
  .record [("weight", .float b.weight), ("list", .texts b.specs)]

def bucketsToJson (bs : List (Bucket Float)) : Json := .array (bs.map Bucket.toJson)

end SuitePlan
