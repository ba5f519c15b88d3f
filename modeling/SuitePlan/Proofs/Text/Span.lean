import SuitePlan.Proofs.TagExpr.Cut

/-! Parts of a text between two byte offsets. A part can be taken out when both offsets lie between
characters, and its bytes are then the bytes of the characters there. -/

namespace SuitePlan

theorem utf8ByteSize_ofList (s : List Char) : (String.ofList s).utf8ByteSize = byteSize s := by
  induction s with
  | nil => rfl
  | cons c s ih =>
    have hc : String.ofList (c :: s) = String.singleton c ++ String.ofList s := by
      rw [String.singleton_eq_ofList, ← String.ofList_append, List.singleton_append]
    rw [hc, String.utf8ByteSize_append, String.utf8ByteSize_singleton, ih, byteSize]

theorem isValid_byteSize {s : String} {a b : List Char} (h : s.toList = a ++ b) :
    String.Pos.Raw.IsValid s ⟨byteSize a⟩ := by
  refine String.Pos.Raw.isValid_iff_exists_append.mpr ⟨String.ofList a, String.ofList b, ?_, ?_⟩
  · rw [← String.ofList_append, ← h, String.ofList_toList]
  · rw [← utf8ByteSize_ofList]
    rfl

/-- The bytes of `s` from `i` to `j` are those of `w`, and no character is cut at either end. -/
structure Spans (s : String) (i j : Nat) (w : String) : Prop where
  first : String.Pos.Raw.IsValid s ⟨i⟩
  last : String.Pos.Raw.IsValid s ⟨j⟩
  ordered : i ≤ j
  bytes : s.toByteArray.extract i j = w.toByteArray

theorem Spans.of_append {s : String} {a w b : List Char} (h : s.toList = a ++ (w ++ b)) :
    Spans s (byteSize a) (byteSize (a ++ w)) (String.ofList w) where
  first := isValid_byteSize h
  last := isValid_byteSize (h.trans (List.append_assoc a w b).symm)
  ordered := by
    rw [byteSize_append]
    exact Nat.le_add_right _ _
  bytes := by
    have hs : s = String.ofList a ++ (String.ofList w ++ String.ofList b) := by
      rw [← String.ofList_append, ← String.ofList_append, ← h, String.ofList_toList]
    have hsize : ∀ v : List Char, byteSize v = (String.ofList v).toByteArray.size := fun v => by
      rw [String.size_toByteArray, utf8ByteSize_ofList]
    rw [hs, String.toByteArray_append, String.toByteArray_append, byteSize_append]
    exact (ByteArray.extract_append_size_add' (i := 0) (hsize a)).trans
      (ByteArray.extract_append_eq_left (hsize w))

end SuitePlan
