import SuitePlan.Proofs.Path.Relative
import SuitePlan.Proofs.Storage.Saving

/-! The spellings of a path. Separators and dots that a path need not have make no difference to the files,
except behind its last name, where they ask for a directory. -/

namespace SuitePlan

namespace Path

variable {s r p : List Char}

theorem exists_last_stretch {x : List Char} (hx : '/' ∉ x) (s : List Char) :
    ∃ ws w, stretches (s ++ x) = ws ++ [w ++ x] := by
  induction s with
  | nil => exact ⟨[], [], stretches_of_notMem hx⟩
  | cons c s ih =>
    obtain ⟨ws, w, hw⟩ := ih
    by_cases hc : c = '/'
    · subst hc
      exact ⟨[] :: ws, w, by rw [List.cons_append, stretches_slash, hw, List.cons_append]⟩
    · cases ws with
      | nil => exact ⟨[], c :: w, by rw [List.cons_append, stretches_cons hc hw]; rfl⟩
      | cons v ws => exact ⟨(c :: v) :: ws, w, by rw [List.cons_append, stretches_cons hc hw]; rfl⟩

/-- No separator or dot stands behind the last name. -/
def EndsInName (s : List Char) : Prop := ∃ ws w, stretches s = ws ++ [w] ∧ isName w

theorem endsInName_of_namesFeature {path : String} (h : namesFeature path) :
    EndsInName path.toList := by
  obtain ⟨r, hr⟩ := List.isSuffixOf_iff_suffix.mp h
  obtain ⟨ws, w, hw⟩ := exists_last_stretch (x := ".feature".toList) (by decide) r
  rw [hr] at hw
  refine ⟨ws, w ++ ".feature".toList, hw, ?_⟩
  have hlength : (w ++ ".feature".toList).length = w.length + 8 := by
    rw [List.length_append]
    rfl
  rw [isName, Bool.and_eq_true, Bool.not_eq_true', List.isEmpty_eq_false_iff, decide_eq_true_eq]
  constructor
  · rintro he
    rw [he] at hlength
    simp at hlength
  · rintro he
    rw [he] at hlength
    simp at hlength

/-- The lead is no name. -/
theorem names_lead (s : List Char) : names (lead s).2 = names s := by
  unfold lead
  split
  · rfl
  · rfl
  · rfl
  · rfl

/-- The names are the components but for the lead. -/
theorem names_eq_filter (s : List Char) :
    names s = (components s).filter fun p => isName p && !p.contains '/' := by
  have hnames : (names s).filter (fun p => isName p && !p.contains '/') = names s := by
    apply List.filter_eq_self.mpr
    intro p hp
    have hslash := slash_notMem_stretches (List.mem_filter.mp hp).1
    simp [(List.mem_filter.mp hp).2, hslash]
  have hlead : (leading s).filter (fun p => isName p && !p.contains '/') = [] := by
    unfold leading lead
    split
    · rfl
    · rfl
    · rfl
    · rfl
  rw [components_eq, List.filter_append, hlead, List.nil_append, names_lead, hnames]

theorem head_slash_iff (s : List Char) : s.head? = some '/' ↔ ['/'] ∈ components s := by
  have hnames : ['/'] ∉ names s := fun h => slash_notMem_stretches (List.mem_filter.mp h).1 (by decide)
  rw [components_eq, names_lead, List.mem_append, or_iff_left hnames]
  unfold leading lead
  split
  · simp
  · simp
  · simp
  · next h _ _ =>
    simp only [List.isEmpty_nil, if_true, List.not_mem_nil, iff_false]
    intro hs
    obtain ⟨r, rfl⟩ := List.head?_eq_some_iff.mp hs
    exact h r rfl

theorem mem_iff_exists_stretch {c : Char} (hc : c ≠ '/') (s : List Char) :
    c ∈ s ↔ ∃ p ∈ stretches s, c ∈ p := by
  induction s with
  | nil => simp [stretches, pieces]
  | cons d s ih =>
    by_cases hd : d = '/'
    · subst hd
      rw [stretches_slash, List.mem_cons, or_iff_right hc, ih]
      simp
    · obtain ⟨w, ws, hs⟩ := List.exists_cons_of_ne_nil (stretches_ne_nil s)
      rw [stretches_cons hd hs, List.mem_cons, ih, hs]
      simp [or_assoc]

theorem mem_iff_exists_name {c : Char} (hslash : c ≠ '/') (hdot : c ≠ '.') (s : List Char) :
    c ∈ s ↔ ∃ p ∈ names s, c ∈ p := by
  rw [mem_iff_exists_stretch hslash]
  have hname : ∀ p : List Char, c ∈ p → isName p := by
    intro p hp
    have hne : p ≠ ['.'] := by
      rintro rfl
      exact hdot (List.mem_singleton.mp hp)
    simp [isName, List.ne_nil_of_mem hp, hne]
  constructor
  · rintro ⟨p, hp, hc⟩
    exact ⟨p, List.mem_filter.mpr ⟨hp, hname p hc⟩, hc⟩
  · rintro ⟨p, hp, hc⟩
    exact ⟨p, (List.mem_filter.mp hp).1, hc⟩

theorem isName_iff_step (p : List Char) :
    isName p ↔ ¬ (String.ofList p = "" || String.ofList p = ".") := by
  have hiff : ∀ s : String, String.ofList p = s ↔ p = s.toList := fun s =>
    ⟨fun h => by rw [← h, String.toList_ofList], fun h => by rw [h, String.ofList_toList]⟩
  simp [isName, hiff]

end Path

namespace FileTree

variable {t : FileTree} {l : Location}

/-- Only the names in a path lead anywhere, as long as it ends in one. -/
theorem walk_names {ps : List (List Char)} (hps : ps = [] ∨ ∃ ws w, ps = ws ++ [w] ∧ Path.isName w) :
    t.walk l (ps.map String.ofList) = t.walk l ((ps.filter Path.isName).map String.ofList) := by
  induction ps generalizing l with
  | nil => rfl
  | cons p ps ih =>
    have hrest : ps = [] ∨ ∃ ws w, ps = ws ++ [w] ∧ Path.isName w := by
      rcases hps with h | ⟨ws, w, h, hw⟩
      · cases h
      · cases ws with
        | nil => exact .inl (List.cons.inj h).2
        | cons v ws => exact .inr ⟨ws, w, (List.cons.inj h).2, hw⟩
    by_cases hp : Path.isName p
    · have hdot := (Path.isName_iff_step p).mp hp
      rw [List.filter_cons_of_pos hp, List.map_cons, List.map_cons]
      by_cases habove : String.ofList p = ".."
      · rw [walk, walk, if_neg hdot, if_neg hdot, if_pos habove, if_pos habove, ih hrest]
      by_cases hlong : nameLimit < (String.ofList p).utf8ByteSize
      · rw [walk, walk, if_neg hdot, if_neg hdot, if_neg habove, if_neg habove, if_pos hlong, if_pos hlong]
      -- The rest is empty on both sides or on none, as it ends in a name.
      have hempty : (ps.map String.ofList).isEmpty = ((ps.filter Path.isName).map String.ofList).isEmpty := by
        rcases hrest with rfl | ⟨ws, w, rfl, hw⟩
        · rfl
        · rw [List.isEmpty_eq_false_iff.mpr (by simp), List.isEmpty_eq_false_iff.mpr (by simp [hw])]
      rw [walk_name hdot habove hlong, walk_name hdot habove hlong, hempty, ih hrest]
    · have hdot := Decidable.not_not.mp (mt (Path.isName_iff_step p).mpr hp)
      rw [List.filter_cons_of_neg hp, List.map_cons, walk, if_pos hdot, ih hrest]

theorem walk_of_endsInName {s : List Char} (h : Path.EndsInName s) :
    t.walk l ((Path.stretches s).map String.ofList) = t.walk l ((Path.names s).map String.ofList) :=
  walk_names (.inr h)

/-- Spellings of a path that end in a name lead to one place, if none is too long. -/
theorem locate_eq {p q : String} (h : Path.components p.toList = Path.components q.toList)
    (hp : Path.EndsInName p.toList) (hq : Path.EndsInName q.toList) (hp' : p.utf8ByteSize ≤ pathLimit)
    (hq' : q.utf8ByteSize ≤ pathLimit) : t.locate p = t.locate q := by
  have hnames : Path.names p.toList = Path.names q.toList := by
    rw [Path.names_eq_filter, h, ← Path.names_eq_filter]
  have hempty : ∀ {r : String}, Path.EndsInName r.toList → r.isEmpty = false := by
    rintro r ⟨ws, w, hr, hw⟩
    apply Bool.eq_false_iff.mpr
    intro he
    rw [String.isEmpty_iff.mp he] at hr
    have hnil : w = [] := by
      have hlast := congrArg List.getLast? hr
      rw [List.getLast?_concat] at hlast
      exact (Option.some.inj hlast).symm
    rw [hnil] at hw
    cases hw
  have hbad : '\x00' ∈ p.toList ∨ pathLimit < p.utf8ByteSize ↔
      '\x00' ∈ q.toList ∨ pathLimit < q.utf8ByteSize := by
    rw [Path.mem_iff_exists_name (by decide) (by decide), hnames,
      ← Path.mem_iff_exists_name (by decide) (by decide)]
    simp only [Nat.not_lt.mpr hp', Nat.not_lt.mpr hq']
  have hroot : p.toList.head? = some '/' ↔ q.toList.head? = some '/' := by
    rw [Path.head_slash_iff, h, ← Path.head_slash_iff]
  simp only [locate, hempty hp, hempty hq, hbad, hroot, walk_of_endsInName hp, walk_of_endsInName hq, hnames]

end FileTree

end SuitePlan
