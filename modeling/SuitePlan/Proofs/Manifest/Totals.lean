import Mathlib.Data.List.Induction
import SuitePlan.Proofs.KeyedList

/-! What a manifest holds after any sequence of insertions. There is one entry for a path, the last
one that expects scenarios, and the total that is carried along is the sum over the entries. -/

namespace SuitePlan

namespace Manifest

/-- The number of scenarios that all entries together expect. -/
def heldScenarios (m : Manifest) : Nat := (m.specs.map (·.2.expectedScenarios)).sum

structure Consistent (m : Manifest) : Prop where
  ascending : Ascending m.specs
  nonzero : ∀ s ∈ m.specs, s.2.expectedScenarios ≠ 0
  total : m.totalScenarios = m.heldScenarios

theorem consistent_empty (now : Time) (expression : Option String) (totalSpecs : Nat) :
    (empty now expression totalSpecs).Consistent :=
  ⟨List.Pairwise.nil, by simp [empty], rfl⟩

theorem insert_eq_of_zero (m : Manifest) (path : String) {e : ManifestEntry}
    (h : e.expectedScenarios = 0) : m.insert path e = (m, false) := by
  simp [insert, h]

theorem insert_specs {m : Manifest} {path : String} {e : ManifestEntry}
    (h : e.expectedScenarios ≠ 0) : (m.insert path e).1.specs = putSorted path e m.specs := by
  simp [insert, h]

theorem insert_refuses_iff {m : Manifest} {path : String} {e : ManifestEntry} :
    (m.insert path e).2 = false ↔ e.expectedScenarios = 0 := by
  by_cases h : e.expectedScenarios = 0 <;> simp [insert, h]

theorem Consistent.expectedAt_le {m : Manifest} (h : m.Consistent) (path : String) :
    m.expectedAt path ≤ m.totalScenarios := by
  rw [h.total]
  exact le_sum_of_lookup ManifestEntry.expectedScenarios path m.specs

theorem Consistent.heldScenarios_insert {m : Manifest} (h : m.Consistent) (path : String)
    {e : ManifestEntry} (he : e.expectedScenarios ≠ 0) :
    (m.insert path e).1.heldScenarios + m.expectedAt path =
      m.heldScenarios + e.expectedScenarios := by
  rw [heldScenarios, insert_specs he]
  exact sum_putSorted ManifestEntry.expectedScenarios path e h.ascending

theorem Consistent.insert {m : Manifest} (h : m.Consistent) (path : String) (e : ManifestEntry)
    (hfit : (m.insert path e).1.heldScenarios < countLimit) : (m.insert path e).1.Consistent := by
  by_cases he : e.expectedScenarios = 0
  · rw [insert_eq_of_zero m path he]
    exact h
  · have hheld := h.heldScenarios_insert path he
    have hle := h.expectedAt_le path
    have htotal := h.total
    refine ⟨?_, ?_, ?_⟩
    · rw [insert_specs he]
      exact h.ascending.putSorted path e
    · intro s hs
      rw [insert_specs he] at hs
      rcases mem_putSorted hs with rfl | hs
      · exact he
      · exact h.nonzero s hs
    · -- taking the replaced count away first never goes below zero, so only the limit wraps around
      have hmod : (m.insert path e).1.totalScenarios =
          (m.totalScenarios + countLimit - m.expectedAt path + e.expectedScenarios) % countLimit := by
        simp only [Manifest.insert, if_neg he]
      have hsum : m.totalScenarios + countLimit - m.expectedAt path + e.expectedScenarios =
          (m.insert path e).1.heldScenarios + countLimit := by
        omega
      rw [hmod, hsum, Nat.add_mod_right, Nat.mod_eq_of_lt hfit]

def insertAll (m : Manifest) (calls : List (String × ManifestEntry)) : Manifest :=
  calls.foldl (fun m c => (m.insert c.1 c.2).1) m

/-- The entry of the last insertion for a path that expects scenarios. -/
def lastGiven (calls : List (String × ManifestEntry)) (path : String) : Option ManifestEntry :=
  ((calls.filter fun c => c.1 = path ∧ c.2.expectedScenarios ≠ 0).getLast?).map (·.2)

theorem insertAll_append_singleton (m : Manifest) (calls : List (String × ManifestEntry))
    (c : String × ManifestEntry) :
    m.insertAll (calls ++ [c]) = ((m.insertAll calls).insert c.1 c.2).1 := by
  simp [insertAll]

theorem Consistent.insertAll {m : Manifest} (h : m.Consistent)
    {calls : List (String × ManifestEntry)}
    (hfit : ∀ made, made <+: calls → (m.insertAll made).heldScenarios < countLimit) :
    (m.insertAll calls).Consistent := by
  induction calls using List.reverseRecOn with
  | nil => exact h
  | append_singleton calls c ih =>
    have hbefore := ih fun made hm => hfit made (hm.trans (List.prefix_append calls [c]))
    have hafter := hfit (calls ++ [c]) (List.prefix_refl _)
    rw [insertAll_append_singleton] at hafter ⊢
    exact hbefore.insert c.1 c.2 hafter

theorem get?_insert (m : Manifest) (path other : String) (e : ManifestEntry) :
    (m.insert path e).1.get? other =
      if other = path ∧ e.expectedScenarios ≠ 0 then some e else m.get? other := by
  by_cases he : e.expectedScenarios = 0
  · rw [insert_eq_of_zero m path he]
    simp [he]
  · rw [get?, insert_specs he, lookup_putSorted, get?]
    simp [he]

theorem get?_insertAll {m : Manifest} {path : String} (hm : m.get? path = none)
    (calls : List (String × ManifestEntry)) :
    (m.insertAll calls).get? path = lastGiven calls path := by
  induction calls using List.reverseRecOn with
  | nil => exact hm
  | append_singleton calls c ih =>
    rw [insertAll_append_singleton, get?_insert, ih]
    by_cases hc : c.1 = path ∧ c.2.expectedScenarios ≠ 0
    · rw [if_pos ⟨hc.1.symm, hc.2⟩]
      simp [lastGiven, List.filter_append, hc]
    · have hp : ¬(path = c.1 ∧ c.2.expectedScenarios ≠ 0) := fun h => hc ⟨h.1.symm, h.2⟩
      rw [if_neg hp]
      simp [lastGiven, List.filter_append, hc]

/-- After every step of a run the total is the sum over the entries, each of which expects something
and is the last one given for its path. What a replacement takes away never exceeds the total, and
an insertion that is refused changes nothing. -/
theorem insertAll_totals (now : Time) (expression : Option String) (totalSpecs : Nat)
    (calls : List (String × ManifestEntry))
    (hfit : ∀ made, made <+: calls →
      ((empty now expression totalSpecs).insertAll made).heldScenarios < countLimit)
    (made : List (String × ManifestEntry)) (hmade : made <+: calls) :
    let m := (empty now expression totalSpecs).insertAll made
    m.totalScenarios = m.heldScenarios ∧
      (∀ s ∈ m.specs, s.2.expectedScenarios ≠ 0) ∧
      (∀ path, m.expectedAt path ≤ m.totalScenarios) ∧
      (m.specs.map (·.1)).Nodup ∧
      (∀ path, m.get? path = lastGiven made path) ∧
      ∀ path e, (m.insert path e).2 = false → (m.insert path e).1 = m := by
  intro m
  have hm : m.Consistent := (consistent_empty now expression totalSpecs).insertAll
    fun before hb => hfit before (hb.trans hmade)
  refine ⟨hm.total, hm.nonzero, hm.expectedAt_le, ?_, fun _ => get?_insertAll rfl made, ?_⟩
  · have hne : m.specs.Pairwise fun x y => x.1 ≠ y.1 := hm.ascending.imp fun h => ne_of_lt h
    exact List.pairwise_map.mpr hne
  · intro path e h
    rw [insert_eq_of_zero m path (insert_refuses_iff.mp h)]

theorem insertAll_totals_replaced :
    let calls : List (String × ManifestEntry) :=
      [("b", ⟨"B", 2, []⟩), ("a", ⟨"A", 1, []⟩), ("b", ⟨"B", 0, []⟩), ("b", ⟨"C", 5, []⟩)]
    let m := (empty (.ofEpoch 0 0) none 2).insertAll calls
    m.totalScenarios = 6 ∧ m.heldScenarios = 6 ∧ m.get? "b" = some ⟨"C", 5, []⟩ := by
  intro calls m
  have hfit : ∀ made, made <+: calls →
      ((empty (.ofEpoch 0 0) none 2).insertAll made).heldScenarios < countLimit := by
    intro made hm
    have hall : ∀ k ∈ List.range 5,
        ((empty (.ofEpoch 0 0) none 2).insertAll (calls.take k)).heldScenarios < countLimit := by
      decide
    have hk := hall made.length (List.mem_range.mpr (Nat.lt_succ_of_le hm.length_le))
    rwa [← List.prefix_iff_eq_take.mp hm] at hk
  obtain ⟨htotal, -, -, -, hget, -⟩ :=
    insertAll_totals (.ofEpoch 0 0) none 2 calls hfit calls (List.prefix_refl calls)
  have hheld : m.heldScenarios = 6 := by decide
  exact ⟨htotal.trans hheld, hheld, (hget "b").trans (by decide)⟩

end Manifest

end SuitePlan
