import SuitePlan.Json.Decode
import SuitePlan.Proofs.Json.RoundTrip
import SuitePlan.Proofs.KeyedList

/-! Records: objects whose keys are texts. A field is found under its name. -/

namespace SuitePlan

section

variable {α β : Type} {f : α → Option β} {as : List α}

theorem mapM_eq_some {g : α → β} (h : ∀ a ∈ as, f a = some (g a)) : as.mapM f = some (as.map g) := by
  induction as with
  | nil => rfl
  | cons a as ih =>
    rw [List.mapM_cons, h a List.mem_cons_self, ih fun b hb => h b (List.mem_cons_of_mem _ hb)]
    rfl

/-- What was made from the elements of a list one by one is taken back one by one. -/
theorem mapM_map_eq_some {g : β → α} {bs : List β} (h : ∀ b ∈ bs, f (g b) = some b) :
    (bs.map g).mapM f = some bs := by
  have hall := mapM_eq_some (f := f ∘ g) (g := id) h
  rwa [List.map_id, ← List.mapM_map] at hall

theorem exists_of_mem_mapM {bs : List β} (h : as.mapM f = some bs) {b : β} (hb : b ∈ bs) :
    ∃ a ∈ as, f a = some b := by
  induction as generalizing bs with
  | nil =>
    cases h
    cases hb
  | cons a as ih =>
    rw [List.mapM_cons] at h
    obtain ⟨c, hc, h⟩ := Option.bind_eq_some_iff.mp h
    obtain ⟨cs, hcs, h⟩ := Option.bind_eq_some_iff.mp h
    cases h
    rcases List.mem_cons.mp hb with rfl | hb
    · exact ⟨a, List.mem_cons_self, hc⟩
    · obtain ⟨d, hd, he⟩ := ih hcs hb
      exact ⟨d, List.mem_cons_of_mem _ hd, he⟩

end

namespace Json

theorem itemNumerals_eq (js : List Json) : itemNumerals js = js.flatMap numerals := by
  induction js with
  | nil => rfl
  | cons j js ih => rw [itemNumerals, ih, List.flatMap_cons]

@[simp] theorem numerals_text (s : String) : (text s).numerals = [] := rfl

@[simp] theorem numerals_nat (n : Nat) : (nat n).numerals = [.ofNat n] := rfl

@[simp] theorem numerals_array (js : List Json) : (array js).numerals = js.flatMap numerals :=
  itemNumerals_eq js

@[simp] theorem numerals_texts (ss : List String) : (texts ss).numerals = [] := by
  rw [texts, numerals_array, List.flatMap_map]
  simp

@[simp] theorem numerals_record (ms : List (String × Json)) :
    (record ms).numerals = ms.flatMap (·.2.numerals) := by
  rw [record, numerals]
  induction ms with
  | nil => rfl
  | cons m ms ih => rw [List.map_cons, memberNumerals, ih, List.flatMap_cons]

@[simp] theorem depth_text (s : String) : (text s).depth = 0 := rfl

@[simp] theorem depth_record (ms : List (String × Json)) :
    (record ms).depth = (ms.map (·.2.depth)).foldr max 0 + 1 := by
  rw [record, depth]
  congr 1
  induction ms with
  | nil => rfl
  | cons m ms ih => rw [List.map_cons, memberDepth, ih, List.map_cons, List.foldr_cons]

@[simp] theorem isPlain_text (s : String) : (text s).isPlain = true := rfl

@[simp] theorem isPlain_record (ms : List (String × Json)) :
    (record ms).isPlain = ms.all (·.2.isPlain) := by
  rw [record, isPlain]
  induction ms with
  | nil => rfl
  | cons m ms ih =>
    rw [List.map_cons, membersPlain, ih, List.all_cons, Option.isSome_some, Bool.true_and]

@[simp] theorem asMembers?_record (ms : List (String × Json)) : (record ms).asMembers? = some ms :=
  mapM_map_eq_some fun _ _ => rfl

theorem valuesOf_eq {ms : List (String × Json)} (h : (ms.map (·.1)).Nodup) (key : String) :
    valuesOf key ms = (ms.lookup key).toList := by
  induction ms with
  | nil => rfl
  | cons m ms ih =>
    obtain ⟨k, j⟩ := m
    obtain ⟨hk, hms⟩ := List.nodup_cons.mp h
    have hrest := ih hms
    rw [valuesOf] at hrest
    by_cases he : k = key
    · subst he
      rw [lookup_eq_none_of_notMem hk] at hrest
      rw [valuesOf, List.filter_cons_of_pos (by simp), List.map_cons, hrest, lookup_cons_eq, if_pos rfl]
      rfl
    · rw [valuesOf, List.filter_cons_of_neg (by simpa using he), hrest, lookup_cons_eq,
        if_neg (Ne.symm he)]

theorem memberOf?_eq {ms : List (String × Json)} (h : (ms.map (·.1)).Nodup) (key : String) :
    memberOf? ms key = some (ms.lookup key) := by
  rw [memberOf?, valuesOf_eq h]
  cases ms.lookup key <;> rfl

/-- The fields of a record are the values of its members under their names. -/
theorem fields?_record {ms : List (String × Json)} (h : (ms.map (·.1)).Nodup) (names : List String) :
    fields? names (record ms) = some (names.map fun k => ms.lookup k) := by
  have hall : names.mapM (memberOf? ms) = some (names.map fun k => ms.lookup k) :=
    mapM_eq_some fun name _ => memberOf?_eq h name
  have hmembers : fields? names (record ms) = (record ms).asMembers?.bind fun ms => names.mapM (memberOf? ms) :=
    rfl
  rw [hmembers, asMembers?_record, Option.bind_some, hall]

theorem asList?_map {α : Type} {f : Json → Option α} {g : α → Json} {as : List α}
    (h : ∀ a ∈ as, f (g a) = some a) : asList? f (array (as.map g)) = some as :=
  mapM_map_eq_some h

theorem asList?_texts (ss : List String) : asList? asText? (texts ss) = some ss :=
  asList?_map fun _ _ => rfl

theorem asNat?_nat {n : Nat} (h : n < Numeral.natLimit) : asNat? (nat n) = some n := by
  simp [asNat?, nat, Numeral.toNat?, Numeral.ofNat, h]

end Json

end SuitePlan
