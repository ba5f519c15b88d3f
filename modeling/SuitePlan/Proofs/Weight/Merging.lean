import SuitePlan.Proofs.Distinct
import SuitePlan.Proofs.KeyedList
import SuitePlan.Weight.Document

/-! Weight tables as what is left of the insertions that build them. Merging two tables lines up their
insertions, so it inherits the laws of appending lists. -/

namespace SuitePlan

namespace Weights

variable {W : Type}

theorem map_fst_insertEntry (key : String) (e : Weighing W) (l : List (String × Weighing W)) :
    (insertEntry key e l).map (·.1) =
      if key ∈ l.map (·.1) then l.map (·.1) else l.map (·.1) ++ [key] := by
  induction l with
  | nil => rfl
  | cons x l ih =>
    obtain ⟨k, old⟩ := x
    by_cases hk : k = key
    · simp [insertEntry, hk]
    · have hk' : key ≠ k := Ne.symm hk
      by_cases hl : key ∈ l.map (·.1)
      · rw [if_pos hl] at ih
        have hkl : key ∈ ((k, old) :: l).map (·.1) := List.mem_cons_of_mem k hl
        rw [insertEntry, if_neg hk, List.map_cons, ih, if_pos hkl, List.map_cons]
      · rw [if_neg hl] at ih
        have hkl : key ∉ ((k, old) :: l).map (·.1) := List.not_mem_cons_of_ne_of_not_mem hk' hl
        rw [insertEntry, if_neg hk, List.map_cons, ih, if_neg hkl, List.map_cons, List.cons_append]

theorem lookup_insertEntry (key other : String) (e : Weighing W) (l : List (String × Weighing W)) :
    (insertEntry key e l).lookup other = if other = key then some e else l.lookup other := by
  induction l with
  | nil => exact lookup_cons_eq other key e []
  | cons x l ih =>
    obtain ⟨k, old⟩ := x
    by_cases hk : k = key
    · subst hk
      simp only [insertEntry, if_true, lookup_cons_eq]
      by_cases ho : other = k
      · simp only [if_pos ho]
      · simp only [if_neg ho]
    · simp only [insertEntry, if_neg hk, lookup_cons_eq, ih]
      by_cases ho : other = k
      · have hne : other ≠ key := fun he => hk (ho.symm.trans he)
        simp only [if_pos ho, if_neg hne]
      · simp only [if_neg ho]

theorem keys_insert (t : Weights W) (key : String) (e : Weighing W) :
    (t.insert key e).keys = if key ∈ t.keys then t.keys else t.keys ++ [key] :=
  map_fst_insertEntry key e t.entries

theorem get?_insert (t : Weights W) (key other : String) (e : Weighing W) :
    (t.insert key e).get? other = if other = key then some e else t.get? other :=
  lookup_insertEntry key other e t.entries

/-- Inserts entries one after another. -/
def insertAll (t : Weights W) (entries : List (String × Weighing W)) : Weights W :=
  entries.foldl (fun t (k, e) => t.insert k e) t

theorem merge_eq_insertAll (t u : Weights W) : t.merge u = t.insertAll u.entries := rfl

theorem ofList_eq_insertAll (entries : List (String × Weighing W)) :
    ofList entries = insertAll {} entries := rfl

theorem eq_of_get? {t u : Weights W} (ht : t.keys.Nodup) (hk : t.keys = u.keys)
    (h : ∀ key, t.get? key = u.get? key) : t = u := by
  have hentries : t.entries = u.entries := eq_of_lookup ht hk h
  cases t
  cases u
  exact congrArg Weights.mk hentries

/-- What insertions leave: every key at the place of its first insertion, with the value of its last. -/
structure Keeps (h : List (String × Weighing W)) (t : Weights W) : Prop where
  keys_eq : t.keys = (h.map (·.1)).eraseDups
  get?_eq : ∀ key, t.get? key = h.reverse.lookup key

namespace Keeps

variable {g h : List (String × Weighing W)} {t u : Weights W}

theorem nodup (ht : Keeps h t) : t.keys.Nodup := by
  rw [ht.keys_eq]
  exact nodup_eraseDups _

theorem empty : Keeps [] ({} : Weights W) := ⟨rfl, fun _ => rfl⟩

theorem insert (ht : Keeps h t) (key : String) (e : Weighing W) :
    Keeps (h ++ [(key, e)]) (t.insert key e) := by
  constructor
  · rw [keys_insert, ht.keys_eq, List.map_append, List.map_singleton, eraseDups_append_singleton]
    simp only [List.mem_eraseDups]
  · intro other
    rw [get?_insert, ht.get?_eq, List.reverse_append, List.reverse_singleton, List.singleton_append,
      lookup_cons_eq]

theorem insertAll (ht : Keeps h t) (entries : List (String × Weighing W)) :
    Keeps (h ++ entries) (t.insertAll entries) := by
  induction entries generalizing h t with
  | nil => rwa [List.append_nil]
  | cons x entries ih =>
    have hh := ih (ht.insert x.1 x.2)
    rwa [List.append_assoc] at hh

theorem unique (ht : Keeps h t) (hu : Keeps h u) : t = u := by
  have hkeys : t.keys = u.keys := ht.keys_eq.trans hu.keys_eq.symm
  exact eq_of_get? ht.nodup hkeys fun key => (ht.get?_eq key).trans (hu.get?_eq key).symm

theorem lookup_append (g h : List (String × Weighing W)) (key : String) :
    (g ++ h).reverse.lookup key = (h.reverse.lookup key).or (g.reverse.lookup key) := by
  rw [List.reverse_append, List.lookup_append]

theorem merge (ht : Keeps g t) (hu : Keeps h u) : Keeps (g ++ h) (t.merge u) := by
  have hm := ht.insertAll u.entries
  have hkeys : u.entries.map (·.1) = (h.map (·.1)).eraseDups := hu.keys_eq
  have hlast : ∀ key, u.entries.reverse.lookup key = h.reverse.lookup key := fun key =>
    (lookup_reverse_of_nodup hu.nodup key).trans (hu.get?_eq key)
  constructor
  · rw [merge_eq_insertAll, hm.keys_eq, List.map_append, hkeys, eraseDups_append_eraseDups,
      List.map_append]
  · intro key
    rw [merge_eq_insertAll, hm.get?_eq, lookup_append, lookup_append, hlast]

/-- Repeating the last insertions changes nothing. -/
theorem again (hm : Keeps (g ++ h) t) : Keeps (g ++ h ++ h) t := by
  constructor
  · have hnone : (h.map (·.1)).removeAll ((g ++ h).map (·.1)) = [] := by
      apply List.filter_eq_nil_iff.mpr
      intro k hk
      have hall : k ∈ (g ++ h).map (·.1) := by
        rw [List.map_append]
        exact List.mem_append_right _ hk
      simp only [List.elem_eq_mem, hall, decide_true, Bool.not_true, Bool.false_eq_true,
        not_false_eq_true]
    rw [List.map_append, List.eraseDups_append, hnone, List.eraseDups_nil, List.append_nil]
    exact hm.keys_eq
  · intro key
    rw [hm.get?_eq, lookup_append (g ++ h), lookup_append g, ← Option.or_assoc, Option.or_self]

theorem of_nodup (hn : t.keys.Nodup) : Keeps t.entries t :=
  ⟨(eraseDups_of_nodup hn).symm, fun key => (lookup_reverse_of_nodup hn key).symm⟩

end Keeps

theorem keys_merge {t u : Weights W} (ht : t.keys.Nodup) (hu : u.keys.Nodup) :
    (t.merge u).keys = t.keys ++ u.keys.filter (· ∉ t.keys) := by
  have hm := ((Keeps.of_nodup ht).merge (Keeps.of_nodup hu)).keys_eq
  have hnew : u.keys.removeAll t.keys = u.keys.filter (· ∉ t.keys) := by
    simp [List.removeAll]
  calc (t.merge u).keys = (t.keys ++ u.keys).eraseDups := by rw [hm, List.map_append, keys, keys]
    _ = t.keys.eraseDups ++ (u.keys.filter (· ∉ t.keys)).eraseDups := by
      rw [List.eraseDups_append, hnew]
    _ = t.keys ++ u.keys.filter (· ∉ t.keys) := by
      rw [eraseDups_of_nodup ht, eraseDups_of_nodup (hu.filter _)]

theorem get?_merge {t u : Weights W} (ht : t.keys.Nodup) (hu : u.keys.Nodup) (key : String) :
    (t.merge u).get? key = (u.get? key).or (t.get? key) := by
  have kt := Keeps.of_nodup ht
  have ku := Keeps.of_nodup hu
  rw [(kt.merge ku).get?_eq, Keeps.lookup_append, ku.get?_eq, kt.get?_eq]

/-- The entries of a document in its order, repeated keys included. -/
def documentEntries? (j : Json) : Option (List (String × Weighing Float)) := do
  let members ← j.asMembers?
  members.mapM fun (k, v) => (Weighing.ofJson? v).map (k, ·)

theorem ofJson?_eq (j : Json) : ofJson? j = (documentEntries? j).map ofList := by
  simp only [ofJson?, documentEntries?]
  cases j.asMembers? with
  | none => rfl
  | some members =>
    simp only [Option.bind_eq_bind, Option.bind_some]
    exact Option.map_eq_bind.symm

/-- The tables that can be built, each with all insertions on the way to it. -/
inductive Built : List (String × Weighing Float) → Weights Float → Prop
  | empty : Built [] {}
  | insert {h : List (String × Weighing Float)} {t : Weights Float} (key : String)
      (e : Weighing Float) (ht : Built h t) : Built (h ++ [(key, e)]) (t.insert key e)
  | merge {g h : List (String × Weighing Float)} {t u : Weights Float} (ht : Built g t)
      (hu : Built h u) : Built (g ++ h) (t.merge u)
  | document {s : String} {h : List (String × Weighing Float)} {t : Weights Float}
      (hh : (Json.ofText? s).bind documentEntries? = some h) (ht : ofText? s = some t) : Built h t

theorem Built.keeps {h : List (String × Weighing Float)} {t : Weights Float} (ht : Built h t) :
    Keeps h t := by
  induction ht with
  | empty => exact .empty
  | insert key e _ ih => exact ih.insert key e
  | merge _ _ iht ihu => exact iht.merge ihu
  | @document s h t hh ht =>
    obtain ⟨j, hj, hentries⟩ := Option.bind_eq_some_iff.mp hh
    have hlist : t = ofList h := by
      rw [ofText?, hj, Option.bind_some, ofJson?_eq, hentries, Option.map_some] at ht
      exact (Option.some.inj ht).symm
    rw [hlist, ofList_eq_insertAll]
    exact Keeps.empty.insertAll h

/-- Any table that is built has its keys in the order of their first insertions, each with the value
of the last one. On such tables merging is a monoid in which the right side takes precedence. -/
theorem merge_built {ha hb hc : List (String × Weighing Float)} {a b c : Weights Float}
    (hA : Built ha a) (hB : Built hb b) (hC : Built hc c) :
    (a.keys.Nodup ∧ a.keys = (ha.map (·.1)).eraseDups ∧
      ∀ key, a.get? key = ha.reverse.lookup key) ∧
    (merge {} a = a ∧ a.merge {} = a ∧ (a.merge b).merge c = a.merge (b.merge c) ∧
      (a.merge b).merge b = a.merge b) ∧
    (a.merge b).keys = a.keys ++ b.keys.filter (· ∉ a.keys) ∧
    ∀ key, (a.merge b).get? key = (b.get? key).or (a.get? key) := by
  have ka := hA.keeps
  have kb := hB.keeps
  have kc := hC.keeps
  have kab := ka.merge kb
  refine ⟨⟨ka.nodup, ka.keys_eq, ka.get?_eq⟩, ⟨?_, rfl, ?_, ?_⟩, ?_, ?_⟩
  · exact (Keeps.empty.merge ka).unique ka
  · have hright := ka.merge (kb.merge kc)
    rw [← List.append_assoc] at hright
    exact (kab.merge kc).unique hright
  · exact (kab.merge kb).unique kab.again
  · exact keys_merge ka.nodup kb.nodup
  · intro key
    rw [kab.get?_eq, Keeps.lookup_append, kb.get?_eq, ka.get?_eq]

theorem merge_built_document :
    let text := "\x7b\"b\":\x7b\"time\":null\x7d,\"a\":\x7b\x7d,\"b\":\x7b\"x\":1\x7d\x7d"
    let a := merge (insert (insert {} "c" ⟨some 2, none⟩) "a" ⟨none, some 1⟩) (insert {} "c" {})
    let b : Weights Float := ⟨[("b", {}), ("a", {})]⟩
    ofText? text = some b ∧ a.keys = ["c", "a"] ∧ a.get? "c" = some {} ∧
      (a.merge b).keys = ["c", "a", "b"] ∧ (a.merge b).get? "a" = some {} ∧
      (a.merge b).merge a = a.merge (b.merge a) := by
  intro text a b
  have hA : Built [("c", ⟨some 2, none⟩), ("a", ⟨none, some 1⟩), ("c", {})] a :=
    .merge (.insert _ _ (.insert _ _ .empty)) (.insert _ _ .empty)
  have ht : ofText? text = some b := by decide +kernel
  have hB : Built [("b", {}), ("a", {}), ("b", {})] b := .document (s := text) (by decide +kernel) ht
  obtain ⟨⟨-, hkeys, hget⟩, ⟨-, -, hassoc, -⟩, hmerged, hvalue⟩ := merge_built hA hB hA
  have ha : a.keys = ["c", "a"] := hkeys.trans (by decide)
  refine ⟨ht, ha, hget "c", ?_, hvalue "a", hassoc⟩
  rw [hmerged, ha]
  decide

end Weights

end SuitePlan
