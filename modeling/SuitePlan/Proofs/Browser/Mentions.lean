import Mathlib.Data.List.Basic
import SuitePlan.Proofs.Browser.Search
import SuitePlan.Proofs.TagExpr.Neighbours
import SuitePlan.Proofs.Text.Pieces

/-! The marker in the tokens of an expression. It is named by a leaf exactly when it is by one of the
words, and by a leaf under a negation only when a `not` stands before the word. In the text such words
are the places where the marker stands by itself. -/

namespace SuitePlan

/-- The marker is what stands between two commas of a word. -/
def Token.Names (m : List Char) (t : Token) : Prop :=
  t.kind = .word ∧ m ∈ pieces (fun c => decide (c = ',')) t.text

/-- What a marker cannot contain. -/
def isSeparator (c : Char) : Bool := isBlank c || c = ',' || isParen c

variable {m : List Char} {ts : List Token}

theorem IsMarker.not_isSeparator (hm : IsMarker m) : ∀ c ∈ m, isSeparator c = false := by
  intro c hc
  simp [isSeparator, hm.plain c hc]

theorem isSeparator_of_isBlank {c : Char} (h : isBlank c) : isSeparator c := by
  simp [isSeparator, h]

theorem isSeparator_of_not_isWordChar {c : Char} (h : isWordChar c = false) : isSeparator c := by
  simp only [isWordChar, Bool.and_eq_false_iff, Bool.not_eq_false'] at h
  rcases h with h | h <;> simp [isSeparator, h]

theorem IsOperator.not_mem_comma {w : List Char} (h : IsOperator w) : ',' ∉ w := by
  intro hc
  have hl : ',' ∈ w.map Char.toLower := List.mem_map.mpr ⟨',', hc, rfl⟩
  rcases h with h | h | rfl
  · rw [h] at hl
    simp at hl
  · rw [h] at hl
    simp at hl
  · simp at hc

/-- The leaf of any run of words in `ts` names the marker when one of the words does. -/
def LeavesName (marker : String) (leaf : List Token → String) (ts : List Token) : Prop :=
  ∀ ws, ws ≠ [] → ws <:+: ts → (∀ t ∈ ws, t.kind = .word) →
    (names marker (leaf ws) = true ↔ ∃ t ∈ ws, t.Names marker.toList)

/-- The marker stands between separators of a token just when it does so between commas, and then the
token is neither a parenthesis nor an operator. -/
theorem Token.names_iff (hm : IsMarker m) {t : Token}
    (ht : (∃ c, isParen c ∧ t.text = [c]) ∨ (t.text ≠ [] ∧ ∀ c ∈ t.text, isWordChar c)) :
    t.Names m ↔ m ∈ pieces isSeparator t.text := by
  rcases ht with ⟨c, hc, ht⟩ | ⟨-, hw⟩
  · have hk : t.kind ≠ .word := by
      simp only [isParen, Bool.or_eq_true, decide_eq_true_eq] at hc
      rcases hc with rfl | rfl <;> simp [Token.kind, ht, TokenKind.ofText]
    exact iff_of_false (fun h => hk h.1) (not_mem_pieces hm.nonempty (by simp [ht, isSeparator, hc]))
  · have hcomma : ∀ c ∈ t.text, isSeparator c = decide (c = ',') := by
      intro c hc
      have hwc := hw c hc
      simp only [isWordChar, Bool.and_eq_true, Bool.not_eq_true'] at hwc
      simp [isSeparator, hwc]
    rw [Token.Names, pieces_congr hcomma, and_iff_right_iff_imp, Token.kind, ofText_eq_word_iff]
    intro h
    refine ⟨fun ht => ?_, fun ht => ?_, fun ho => ?_⟩
    · simpa [isWordChar, isParen] using hw '(' (by simp [ht])
    · simpa [isWordChar, isParen] using hw ')' (by simp [ht])
    · rw [pieces_of_none fun c hc => by simpa using fun he : c = ',' => ho.not_mem_comma (he ▸ hc),
        List.mem_singleton] at h
      exact hm.noOperator (h ▸ ho)

/-- Separators are around the marker somewhere in a text when one of the tokens names it. -/
theorem Cut.exists_names_iff (hm : IsMarker m) {i : Nat} {s : List Char} (h : Cut i s ts) :
    m ∈ pieces isSeparator s ↔ ∃ t ∈ ts, t.Names m := by
  have hg : ∀ {g : List Char}, (∀ c ∈ g, isBlank c) → ∀ c ∈ g, isSeparator c :=
    fun hg c hc => isSeparator_of_isBlank (hg c hc)
  have hne := hm.nonempty
  induction h with
  | @blank i g hb =>
    simpa using not_mem_pieces hne (hg hb)
  | @paren i g r c ts hb hc _ ih =>
    have ht : (⟨g, i + byteSize g, [c]⟩ : Token).Names m ↔ m ∈ pieces isSeparator [c] :=
      Token.names_iff hm (.inl ⟨c, hc, rfl⟩)
    have hr : ∀ d ∈ [c], isSeparator d := by simp [isSeparator, hc]
    rw [List.exists_mem_cons_iff, ht, or_iff_right (not_mem_pieces hne hr),
      mem_pieces_leading hne (hg hb), mem_pieces_cons hne (hr c List.mem_cons_self)]
    exact ih
  | @word i g w r ts hb hw' hw hr _ ih =>
    have ht : (⟨g, i + byteSize g, w⟩ : Token).Names m ↔ m ∈ pieces isSeparator w :=
      Token.names_iff hm (.inr ⟨hw', hw⟩)
    have hr' : ∀ c ∈ r.head?, isSeparator c := fun c hc => isSeparator_of_not_isWordChar (hr c hc)
    rw [List.exists_mem_cons_iff, ht, mem_pieces_leading hne (hg hb), mem_pieces_append hne hr']
    exact or_congr_right ih

theorem Cut.consecutive {i : Nat} {s : List Char} {ws : List Token} (h : Cut i s ts) (hi : ws <:+: ts) :
    ∃ j r, Cut j r ws := by
  obtain ⟨pre, post, rfl⟩ := hi
  rw [List.append_assoc] at h
  obtain ⟨j, r, h⟩ := h.drop
  exact ⟨j, _, h.take⟩

theorem names_leaf_iff {marker : String} (hm : IsMarker marker.toList) {i : Nat} {s : List Char}
    (h : Cut i s ts) (hne : ts ≠ []) (hw : ∀ t ∈ ts, t.kind = .word) :
    names marker (Token.leaf ts) = true ↔ ∃ t ∈ ts, t.Names marker.toList := by
  have hleaf := h.canonicalLeaf (List.infix_refl ts) hne hw
  have hsep : ∀ c ∈ Token.spelling ts, (isBlank c || c = ',') = isSeparator c := fun c hc => by
    simp [isSeparator, hleaf.noParen c hc]
  obtain ⟨t, us, rfl⟩ := List.exists_cons_of_ne_nil hne
  obtain ⟨tail, htail, hs⟩ := h.spelled
  have hgap : ∀ c ∈ t.gap, isSeparator c := fun c hc =>
    isSeparator_of_isBlank (h.gap_blank List.mem_cons_self c hc)
  have hend : ∀ c ∈ tail, isSeparator c := fun c hc => isSeparator_of_isBlank (htail c hc)
  have hspan : s = t.gap ++ (Token.spelling (t :: us) ++ tail) := by
    simp [hs, Token.extent, Token.spelling]
  rw [names, List.contains_iff_mem, Token.leaf, String.toList_ofList, pieces_congr hsep,
    ← h.exists_names_iff hm, hspan, mem_pieces_leading hm.nonempty hgap,
    mem_pieces_append hm.nonempty fun c hc => hend c (List.mem_of_mem_head? hc),
    or_iff_left (not_mem_pieces hm.nonempty hend)]

theorem leavesName_tokens {marker : String} (hm : IsMarker marker.toList) (s : List Char) :
    LeavesName marker Token.leaf (tokensOf s) := by
  intro ws hne hi hw
  obtain ⟨j, r, hcut⟩ := (scan_cut 0 s).consecutive hi
  exact names_leaf_iff hm hcut hne hw

variable {leaf : List Token → String} {lvl : Level} {e : TagExpr} {marker : String}

theorem LeavesName.mono {us : List Token} (h : LeavesName marker leaf ts) (hi : us <:+: ts) :
    LeavesName marker leaf us :=
  fun ws hne hws hw => h ws hne (hws.trans hi) hw

namespace Derives

theorem mentions_iff (h : Derives leaf lvl ts e) (hleaf : LeavesName marker leaf ts) :
    e.mentions marker true = true ∨ e.mentions marker false = true ↔
      ∃ t ∈ ts, t.Names marker.toList := by
  induction h with
  | @words ws hne hw => simpa [TagExpr.mentions] using hleaf ws hne (List.infix_refl ws) hw
  | @group o c us f ho hc _ ih =>
    rw [ih (hleaf.mono (infix_group ..))]
    simp [Token.Names, ho, hc]
  | operand _ ih | conjunct _ ih | disjunct _ ih => exact ih hleaf
  | @not t us f ht _ ih =>
    have hus := ih (hleaf.mono (infix_not ..))
    have hn : ¬ t.Names marker.toList := fun hn => by simp [hn.1] at ht
    rw [List.exists_mem_cons_iff, or_iff_right hn, ← hus]
    -- what is negated and what is not change places
    exact or_comm
  | @and t us vs l r ht _ _ ihl ihr | @or t us vs l r ht _ _ ihl ihr =>
    have hl := ihl (hleaf.mono (infix_left ..))
    have hr := ihr (hleaf.mono (infix_right ..))
    have hn : ¬ t.Names marker.toList := fun hn => by simp [hn.1] at ht
    simp only [List.mem_append, or_and_right, exists_or, List.exists_mem_cons_iff, or_iff_right hn,
      ← hl, ← hr, TagExpr.mentions, Bool.or_eq_true]
    exact or_or_or_comm

/-- A leaf under a negation stands behind the `not`. -/
theorem not_before_mention (h : Derives leaf lvl ts e) (hleaf : LeavesName marker leaf ts)
    (hneg : e.mentions marker false = true) :
    ∃ pre t post, ts = pre ++ t :: post ∧ t.kind = .not ∧ ∃ u ∈ post, u.Names marker.toList := by
  induction h with
  | words => simp [TagExpr.mentions] at hneg
  | @group o c us f _ _ _ ih =>
    obtain ⟨pre, t, post, rfl, ht, u, hu, hn⟩ := ih (hleaf.mono (infix_group ..)) hneg
    exact ⟨o :: pre, t, post ++ [c], by simp, ht, u, List.mem_append_left [c] hu, hn⟩
  | operand _ ih | conjunct _ ih | disjunct _ ih => exact ih hleaf hneg
  | @not t us f ht hf _ =>
    have hus := hf.mentions_iff (hleaf.mono (infix_not ..))
    exact ⟨[], t, us, rfl, ht, hus.mp (.inl hneg)⟩
  | @and o us vs l r _ _ _ ihl ihr | @or o us vs l r _ _ _ ihl ihr =>
    rw [TagExpr.mentions, Bool.or_eq_true] at hneg
    rcases hneg with hneg | hneg
    · obtain ⟨pre, t, post, rfl, ht, u, hu, hn⟩ := ihl (hleaf.mono (infix_left ..)) hneg
      exact ⟨pre, t, post ++ o :: vs, by simp, ht, u, List.mem_append_left _ hu, hn⟩
    · obtain ⟨pre, t, post, rfl, ht, hn⟩ := ihr (hleaf.mono (infix_right ..)) hneg
      exact ⟨us ++ o :: pre, t, post, by simp, ht, hn⟩

end Derives

end SuitePlan
