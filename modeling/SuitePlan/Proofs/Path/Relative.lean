import Mathlib.Data.List.TakeWhile
import SuitePlan.Path

/-! What is left of a path below a base directory. It still tells the components behind those of the
base, so it keeps paths below the base apart. -/

namespace SuitePlan

namespace Path

/-- The names in a path without its lead. -/
def names (s : List Char) : List (List Char) := (stretches s).filter isName

/-- The lead of a path as a component, if there is one. -/
def leading (s : List Char) : List (List Char) := if (lead s).1.isEmpty then [] else [(lead s).1]

theorem components_eq (s : List Char) : components s = leading s ++ names (lead s).2 := by
  rw [components, leading, names]
  by_cases h : (lead s).1.isEmpty
  · simp only [h, if_true, List.nil_append]
  · simp only [h, Bool.false_eq_true, if_false, List.singleton_append]

theorem stretches_slash (s : List Char) : stretches ('/' :: s) = [] :: stretches s := rfl

theorem stretches_ne_nil (s : List Char) : stretches s ≠ [] := by
  cases s with
  | nil => exact List.cons_ne_nil _ _
  | cons c s =>
    rw [stretches, pieces]
    split
    · exact List.cons_ne_nil _ _
    · split
      · exact List.cons_ne_nil _ _
      · exact List.cons_ne_nil _ _

theorem stretches_cons {c : Char} (hc : c ≠ '/') {s w : List Char} {ws : List (List Char)}
    (h : stretches s = w :: ws) : stretches (c :: s) = (c :: w) :: ws := by
  have hs : pieces (· = '/') s = w :: ws := h
  simp only [stretches, pieces, hc, decide_false, Bool.false_eq_true, if_false, hs]

theorem stretches_append_slash {p : List Char} (hp : '/' ∉ p) (s : List Char) :
    stretches (p ++ '/' :: s) = p :: stretches s := by
  induction p with
  | nil => exact stretches_slash s
  | cons c p ih =>
    have hc : c ≠ '/' := Ne.symm (List.ne_of_not_mem_cons hp)
    exact stretches_cons hc (ih (List.not_mem_of_not_mem_cons hp))

theorem stretches_of_notMem {p : List Char} (hp : '/' ∉ p) : stretches p = [p] := by
  induction p with
  | nil => rfl
  | cons c p ih =>
    have hc : c ≠ '/' := Ne.symm (List.ne_of_not_mem_cons hp)
    exact stretches_cons hc (ih (List.not_mem_of_not_mem_cons hp))

theorem slash_notMem_stretches {s p : List Char} (h : p ∈ stretches s) : '/' ∉ p := by
  induction s generalizing p with
  | nil =>
    cases List.mem_singleton.mp h
    exact List.not_mem_nil
  | cons c s ih =>
    by_cases hc : c = '/'
    · subst hc
      rcases List.mem_cons.mp h with rfl | h
      · exact List.not_mem_nil
      · exact ih h
    · obtain ⟨w, ws, hs⟩ := List.exists_cons_of_ne_nil (stretches_ne_nil s)
      rw [stretches_cons hc hs] at h
      rcases List.mem_cons.mp h with rfl | h
      · have hw := ih (hs ▸ List.mem_cons_self : w ∈ stretches s)
        exact List.not_mem_cons_of_ne_of_not_mem (Ne.symm hc) hw
      · exact ih (hs ▸ List.mem_cons_of_mem w h)

theorem join_singleton (p : List Char) : join [p] = p := by simp [join]

theorem join_cons_cons (p q : List Char) (ps : List (List Char)) :
    join (p :: q :: ps) = p ++ '/' :: join (q :: ps) := by
  simp [join, List.intercalate]

theorem stretches_join {ps : List (List Char)} (hne : ps ≠ []) (hps : ∀ p ∈ ps, '/' ∉ p) :
    stretches (join ps) = ps := by
  induction ps with
  | nil => exact absurd rfl hne
  | cons p ps ih =>
    have hp : '/' ∉ p := hps p List.mem_cons_self
    cases ps with
    | nil => rw [join_singleton, stretches_of_notMem hp]
    | cons q qs =>
      have hh := ih (List.cons_ne_nil q qs) fun r hr => hps r (List.mem_cons_of_mem p hr)
      rw [join_cons_cons, stretches_append_slash hp, hh]

theorem names_join {ps : List (List Char)} (hps : ∀ p ∈ ps, '/' ∉ p) :
    names (join ps) = ps.filter isName := by
  cases ps with
  | nil => rfl
  | cons p ps => rw [names, stretches_join (List.cons_ne_nil p ps) hps]

theorem suffix_dropStart (ps : List (List Char)) : dropStart ps <:+ ps := List.dropWhile_suffix _

theorem filter_dropStart (ps : List (List Char)) :
    (dropStart ps).filter isName = ps.filter isName := by
  induction ps with
  | nil => rfl
  | cons p ps ih =>
    by_cases hp : isName p
    · rw [dropStart, List.dropWhile_cons_of_neg (by simp [hp])]
    · rw [dropStart, List.dropWhile_cons_of_pos (by simp [hp]), List.filter_cons_of_neg hp]
      exact ih

theorem prefix_dropEnd (ps : List (List Char)) : dropEnd ps <+: ps := by
  have h := List.reverse_prefix.mpr (suffix_dropStart ps.reverse)
  rwa [List.reverse_reverse] at h

theorem filter_dropEnd (ps : List (List Char)) :
    (dropEnd ps).filter isName = ps.filter isName := by
  rw [dropEnd, List.filter_reverse, filter_dropStart, List.filter_reverse, List.reverse_reverse]

theorem suffix_dropNames (k : Nat) (ps : List (List Char)) : dropNames k ps <:+ ps := by
  induction k generalizing ps with
  | zero => exact suffix_dropStart ps
  | succ k ih => exact (ih _).trans ((List.drop_suffix 1 _).trans (suffix_dropStart ps))

theorem filter_dropNames (k : Nat) (ps : List (List Char)) :
    (dropNames k ps).filter isName = (ps.filter isName).drop k := by
  induction k generalizing ps with
  | zero => exact filter_dropStart ps
  | succ k ih =>
    rw [dropNames, ih, ← filter_dropStart ps]
    cases hs : dropStart ps with
    | nil => simp
    | cons p r =>
      have hp : isName p := by
        have hh := List.head?_dropWhile_not (!isName ·) ps
        have hd : ps.dropWhile (!isName ·) = p :: r := hs
        simpa [hd] using hh
      rw [List.filter_cons_of_pos hp, List.drop_succ_cons, List.drop_succ_cons, List.drop_zero]

/-- A path lies below a base when the components of the base begin its own. -/
def Below (base path : List Char) : Prop := components base <+: components path

instance (base path : List Char) : Decidable (Below base path) :=
  inferInstanceAs (Decidable (components base <+: components path))

theorem isPrefixOf_components {base path : List Char} :
    (components base).isPrefixOf (components path) ↔ Below base path :=
  List.isPrefixOf_iff_prefix

theorem relativeTo_of_not_below {base path : List Char} (h : ¬ Below base path) :
    relativeTo base path = path := by
  rw [relativeTo, if_neg (mt isPrefixOf_components.mp h)]

/-- Dots and separators at the end of a path do not matter. -/
theorem names_join_dropEnd {ps : List (List Char)} (hps : ∀ p ∈ ps, '/' ∉ p) :
    names (join (dropEnd ps)) = ps.filter isName := by
  rw [names_join fun p hp => hps p ((prefix_dropEnd ps).subset hp), filter_dropEnd]

/-- A path without lead is empty, or its first stretch is a name. -/
theorem lead_eq_self_iff {s : List Char} :
    lead s = ([], s) ↔ s = [] ∨ ∃ w ws, stretches s = w :: ws ∧ isName w := by
  constructor
  · intro h
    cases s with
    | nil => exact .inl rfl
    | cons c s =>
      have hc : c ≠ '/' := by
        rintro rfl
        cases h
      obtain ⟨w, ws, hs⟩ := List.exists_cons_of_ne_nil (stretches_ne_nil s)
      refine .inr ⟨c :: w, ws, stretches_cons hc hs, ?_⟩
      have hdot : c :: w ≠ ['.'] := by
        intro he
        obtain ⟨rfl, rfl⟩ := List.cons.inj he
        cases s with
        | nil => cases h
        | cons d s =>
          by_cases hd : d = '/'
          · subst hd
            cases h
          · obtain ⟨v, vs, hv⟩ := List.exists_cons_of_ne_nil (stretches_ne_nil s)
            rw [stretches_cons hd hv] at hs
            cases hs
      simp [isName, hdot]
  · rintro (rfl | ⟨w, ws, hs, hw⟩)
    · rfl
    · unfold lead
      split
      · rw [stretches_slash] at hs
        cases hs
        cases hw
      · cases hs
        cases hw
      · rw [stretches_cons (by decide) (stretches_slash _)] at hs
        cases hs
        cases hw
      · rfl

theorem dropEnd_head {w : List Char} {ws vs : List (List Char)} {v : List Char}
    (h : dropEnd (w :: ws) = v :: vs) : v = w := by
  have hp := prefix_dropEnd (w :: ws)
  rw [h] at hp
  exact (List.cons_prefix_cons.mp hp).1

theorem lead_join_dropEnd {s : List Char} (h : lead s = ([], s)) :
    lead (join (dropEnd (stretches s))) = ([], join (dropEnd (stretches s))) := by
  rcases lead_eq_self_iff.mp h with rfl | ⟨w, ws, hs, hw⟩
  · rfl
  · have hslash : ∀ p ∈ dropEnd (stretches s), '/' ∉ p :=
      fun p hp => slash_notMem_stretches ((prefix_dropEnd _).subset hp)
    have hfilter := filter_dropEnd (stretches s)
    rw [hs] at hslash hfilter ⊢
    cases hd : dropEnd (w :: ws) with
    | nil =>
      rw [hd, List.filter_cons_of_pos hw] at hfilter
      cases hfilter
    | cons v vs =>
      have hv := dropEnd_head hd
      subst hv
      rw [hd] at hslash
      exact lead_eq_self_iff.mpr (.inr ⟨v, vs, stretches_join (List.cons_ne_nil v vs) hslash, hw⟩)

theorem lead_trimmed (s : List Char) :
    lead (trimmed s) = ((lead s).1, join (dropEnd (stretches (lead s).2))) := by
  unfold trimmed
  fun_cases lead s with
  | case1 r => rfl
  | case2 => rfl
  | case3 r =>
    -- either nothing is left behind the dot, or a separator still follows it
    dsimp only
    rw [stretches_slash]
    cases hd : dropEnd ([] :: stretches r) with
    | nil => rfl
    | cons v vs =>
      have hv := dropEnd_head hd
      subst hv
      cases vs with
      | nil => rfl
      | cons q qs =>
        rw [join_cons_cons]
        rfl
  | case4 s hslash hdot hdotSlash => exact lead_join_dropEnd (lead.eq_4 s hslash hdot hdotSlash)

theorem components_trimmed (s : List Char) : components (trimmed s) = components s := by
  have hnames : names (join (dropEnd (stretches (lead s).2))) = names (lead s).2 :=
    names_join_dropEnd fun p hp => slash_notMem_stretches hp
  rw [components_eq, components_eq, leading, leading, lead_trimmed, hnames]

theorem relativeTo_of_below {base path : List Char} (h : Below base path) :
    relativeTo base path =
      if (components base).isEmpty then trimmed path
      else join (dropEnd (dropNames ((components base).length - (leading path).length)
        (stretches (lead path).2))) := by
  have hlength : (leading path).length = if (lead path).1.isEmpty then 0 else 1 := by
    rw [leading]
    split
    · rfl
    · rfl
  rw [relativeTo, if_pos (isPrefixOf_components.mpr h), hlength]

/-- Behind the components of a base there are the names in what is left of a path. -/
theorem components_below {base path : List Char} (h : Below base path) (hb : components base ≠ []) :
    components path = components base ++ names (relativeTo base path) := by
  obtain ⟨rest, hrest⟩ := h
  have hslash : ∀ p ∈ dropNames ((components base).length - (leading path).length)
      (stretches (lead path).2), '/' ∉ p :=
    fun p hp => slash_notMem_stretches ((suffix_dropNames _ _).subset hp)
  have hnames : names (relativeTo base path) =
      (names (lead path).2).drop ((components base).length - (leading path).length) := by
    rw [relativeTo_of_below ⟨rest, hrest⟩, if_neg (by simpa using hb), names_join_dropEnd hslash,
      filter_dropNames, names]
  -- the lead is the first component of the base, so only names are dropped behind it
  have hlead : (leading path).length ≤ (components base).length := by
    have hone : (leading path).length ≤ 1 := by
      rw [leading]
      split
      · exact Nat.zero_le 1
      · exact Nat.le_refl 1
    exact hone.trans (List.length_pos_iff.mpr hb)
  have hdrop : (names (lead path).2).drop ((components base).length - (leading path).length) =
      (components path).drop (components base).length := by
    rw [components_eq path, List.drop_append, List.drop_of_length_le hlead, List.nil_append]
  rw [hnames, hdrop, ← hrest, List.drop_left]

/-- Paths below a base that leave the same text have the same components. -/
theorem components_eq_of_relativeTo {base p q : List Char} (hp : Below base p) (hq : Below base q)
    (h : relativeTo base p = relativeTo base q) : components p = components q := by
  by_cases hb : components base = []
  · rw [relativeTo_of_below hp, relativeTo_of_below hq, hb] at h
    have htrim : trimmed p = trimmed q := h
    rw [← components_trimmed p, htrim, components_trimmed q]
  · rw [components_below hp hb, components_below hq hb, h]

end Path

end SuitePlan
