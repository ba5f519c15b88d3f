import SuitePlan.Proofs.Decimal.Nonnegative
import SuitePlan.Proofs.Distribution.Partition
import SuitePlan.Proofs.Weight.Matching

/-! Spreading by doubles and by their patterns. What a map of loads keeps, the order and the sums that come
up, it keeps in the buckets. So the buckets are the same in both where no weight is below zero, and there the
sign of what is not a number does not come up. -/

namespace SuitePlan

variable {V W : Type}

theorem Bucket.flatMap_specs_map (f : W → V) (bs : List (Bucket W)) :
    (bs.map (.map f)).flatMap Bucket.specs = bs.flatMap Bucket.specs :=
  List.flatMap_map _ _ bs

variable [Load V] [Load W]

/-- A map of loads that keeps their order. The loads for which `closed` holds it adds up alike with these
weights. -/
structure Carries (f : W → V) (closed : W → Prop) (weights : W → Prop) : Prop where
  zero_eq : f Load.zero = Load.zero
  le_eq : ∀ a b, Load.le (f a) (f b) = Load.le a b
  zero : closed Load.zero
  add : ∀ a w, closed a → weights w → closed (Load.add a w)
  add_eq : ∀ a w, closed a → weights w → f (Load.add a w) = Load.add (f a) (f w)

namespace Carries

variable {f : W → V} {closed weights : W → Prop}

theorem lightestFirst (h : Carries f closed weights) (bs : List (Bucket W)) :
    lightestFirst (bs.map (Bucket.map f)) = (SuitePlan.lightestFirst bs).map (Bucket.map f) :=
  (List.map_mergeSort fun a _ b _ => (h.le_eq a.weight b.weight).symm).symm

theorem heaviestFirst (h : Carries f closed weights) (bs : List (Bucket W)) :
    heaviestFirst (bs.map (Bucket.map f)) = (SuitePlan.heaviestFirst bs).map (Bucket.map f) :=
  (List.map_mergeSort fun a _ b _ => (h.le_eq b.weight a.weight).symm).symm

theorem byWeight (h : Carries f closed weights) (specs : List (String × W)) :
    byWeight (specs.map (Prod.map id f)) = (SuitePlan.byWeight specs).map (Prod.map id f) :=
  (List.map_mergeSort fun a _ b _ => (h.le_eq b.2 a.2).symm).symm

theorem assign (h : Carries f closed weights) {bs : List (Bucket W)} {s : String × W}
    (hb : ∀ b ∈ bs, closed b.weight) (hs : weights s.2) :
    assignLightest (bs.map (Bucket.map f)) (Prod.map id f s) =
        (assignLightest bs s).map (Bucket.map f) ∧
      ∀ b ∈ assignLightest bs s, closed b.weight := by
  have hperm : (SuitePlan.lightestFirst bs).Perm bs := List.mergeSort_perm bs _
  rw [assignLightest, assignLightest, h.lightestFirst]
  have hclosed : ∀ b ∈ SuitePlan.lightestFirst bs, closed b.weight := fun b hmem =>
    hb b (hperm.mem_iff.mp hmem)
  cases hl : SuitePlan.lightestFirst bs with
  | nil => exact ⟨rfl, List.forall_mem_nil _⟩
  | cons b rest =>
    rw [hl] at hclosed
    obtain ⟨hfirst, hrest⟩ := List.forall_mem_cons.mp hclosed
    refine ⟨?_, List.forall_mem_cons.mpr ⟨h.add b.weight s.2 hfirst hs, hrest⟩⟩
    have hassign : (b.map f).assign s.1 (f s.2) = (b.assign s.1 s.2).map f := by
      simp only [Bucket.assign, Bucket.map, h.add_eq b.weight s.2 hfirst hs]
    simp only [List.map_cons, assignFirst, Prod.map_fst, Prod.map_snd, id, hassign]

theorem foldl (h : Carries f closed weights) {bs : List (Bucket W)}
    (hb : ∀ b ∈ bs, closed b.weight) {specs : List (String × W)} (hs : ∀ s ∈ specs, weights s.2) :
    (specs.map (Prod.map id f)).foldl assignLightest (bs.map (Bucket.map f)) =
      (specs.foldl assignLightest bs).map (Bucket.map f) := by
  induction specs generalizing bs with
  | nil => rfl
  | cons s specs ih =>
    obtain ⟨hfirst, hrest⟩ := List.forall_mem_cons.mp hs
    obtain ⟨hassign, hclosed⟩ := h.assign hb hfirst
    rw [List.map_cons, List.foldl_cons, List.foldl_cons, hassign, ih hclosed hrest]

theorem spread (h : Carries f closed weights) {specs : List (String × W)}
    (hs : ∀ s ∈ specs, weights s.2) (workers : Nat) :
    spread (specs.map (Prod.map id f)) workers = (SuitePlan.spread specs workers).map (Bucket.map f) := by
  have hempty : (Bucket.empty : Bucket V) = Bucket.map f .empty := by
    simp only [Bucket.empty, Bucket.map, h.zero_eq]
  have hclosed : ∀ b ∈ List.replicate (bucketCount workers specs.length) (Bucket.empty : Bucket W),
      closed b.weight := by
    intro b hb
    rw [List.eq_of_mem_replicate hb]
    exact h.zero
  have hsorted : ∀ s ∈ SuitePlan.byWeight specs, weights s.2 := fun s hmem =>
    hs s ((byWeight_perm specs).mem_iff.mp hmem)
  rw [SuitePlan.spread, SuitePlan.spread, List.length_map, h.byWeight, hempty, ← List.map_replicate,
    h.foldl hclosed hsorted, h.heaviestFirst]

end Carries

namespace Pattern

open Binary64 (Unsigned)

theorem isNumber_ofFloat {x : Float} (h : Binary64.magnitude x ≤ Binary64.infinity) :
    (ofFloat x).isNumber :=
  decide_eq_true h

theorem toFloat_ofFloat (x : Float) : (ofFloat x).toFloat = x := Float.ofBits_toBits x

theorem carries_ofFloat : Carries ofFloat Unsigned (0.0 ≤ ·) where
  zero_eq := rfl
  le_eq := le_ofFloat
  zero := Unsigned.zero
  add _ _ hx hy := (hx.add hy).1
  add_eq x y hx hy := by
    have hx' := isNumber_ofFloat hx.number
    have hy' := isNumber_ofFloat (Binary64.nonneg_iff.mp hy).1
    have hs := isNumber_ofFloat (hx.add hy).1.number
    show ofFloat (x + y) = add (ofFloat x) (ofFloat y)
    simp only [add, hx', hy', toFloat_ofFloat, hs, Bool.not_true, Bool.false_eq_true, if_false, if_true]

end Pattern

/-- Where no weight is below zero, spreading by patterns is spreading by doubles. -/
theorem spread_ofFloat {t : Weights Float} {fallback : Float}
    (htable : ∀ e ∈ t.entries, ∀ w ∈ e.2.weight, 0.0 ≤ w) (hfallback : 0.0 ≤ fallback) (r : KeyRule)
    (specs : List String) (workers : Nat) :
    (spread (weigh (t.map .ofFloat) (.ofFloat fallback) r specs) workers).map (.map Pattern.toFloat) =
      spread (weigh t fallback r specs) workers := by
  have hweights : ∀ s ∈ weigh t fallback r specs, 0.0 ≤ s.2 := by
    intro s hs
    obtain ⟨path, -, rfl⟩ := List.mem_map.mp hs
    exact Weights.forall_weightOf htable hfallback r path
  have hback : Bucket.map Pattern.toFloat ∘ Bucket.map Pattern.ofFloat = id :=
    funext fun b => congrArg (Bucket.mk · b.specs) (Pattern.toFloat_ofFloat b.weight)
  rw [Weights.weigh_map, Pattern.carries_ofFloat.spread hweights, List.map_map, hback, List.map_id]

end SuitePlan
