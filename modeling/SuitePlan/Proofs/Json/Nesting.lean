import SuitePlan.Json.Reader

/-! Reading with a limit for the arrays and objects inside each other. Along a reading the deepest level
that it has reached only grows, and at its end that is the depth of the value. -/

namespace SuitePlan

namespace Json

theorem itemDepth_append (js ks : List Json) :
    itemDepth (js ++ ks) = max (itemDepth js) (itemDepth ks) := by
  induction js with
  | nil => simp [itemDepth]
  | cons j js ih => rw [List.cons_append, itemDepth, itemDepth, ih, Nat.max_assoc]

theorem itemDepth_reverse (js : List Json) : itemDepth js.reverse = itemDepth js := by
  induction js with
  | nil => rfl
  | cons j js ih =>
    rw [List.reverse_cons, itemDepth_append, ih, itemDepth, itemDepth, itemDepth]
    omega

theorem memberDepth_append (ms ns : List (Option String × Json)) :
    memberDepth (ms ++ ns) = max (memberDepth ms) (memberDepth ns) := by
  induction ms with
  | nil => simp [memberDepth]
  | cons m ms ih =>
    obtain ⟨k, j⟩ := m
    rw [List.cons_append, memberDepth, memberDepth, ih, Nat.max_assoc]

theorem memberDepth_reverse (ms : List (Option String × Json)) :
    memberDepth ms.reverse = memberDepth ms := by
  induction ms with
  | nil => rfl
  | cons m ms ih =>
    obtain ⟨k, j⟩ := m
    rw [List.reverse_cons, memberDepth_append, ih, memberDepth, memberDepth, memberDepth]
    omega

/-- The depth of what stands in an array or object so far. -/
def Enclosing.depth : Enclosing → Nat
  | .array before => itemDepth before
  | .object before _ => memberDepth before

/-- The deepest level inside what has begun, the outermost array or object being at level one. -/
def enclosingReach : List Enclosing → Nat
  | [] => 0
  | e :: around => max (around.length + 1 + e.depth) (enclosingReach around)

/-- The deepest level inside what is being read at a level. -/
def Expecting.reach (level : Nat) : Expecting → Nat
  | .value => level
  | .itemOrClose => level + 1
  | .key before => level + 1 + memberDepth before
  | .keyOrClose => level + 1
  | .colon before _ => level + 1 + memberDepth before
  | .after j => level + j.depth

namespace Reading

/-- The deepest level of a reading up to now. -/
def reach (r : Reading) : Nat := max (r.expecting.reach r.around.length) (enclosingReach r.around)

theorem level_le_reach (r : Reading) : r.level ≤ r.reach := by
  obtain ⟨expecting, around⟩ := r
  cases expecting <;> simp only [level, reach, Expecting.reach] <;> omega

theorem reach_ofValue {around : List Enclosing} {l : Lexeme} {r : Reading}
    (h : ofValue around l = some r) :
    around.length ≤ r.level ∧ r.reach = max r.level (enclosingReach around) := by
  cases l <;> cases h <;> simp [reach, level, Expecting.reach, depth]

theorem reach_ofAfter {j : Json} {around : List Enclosing} {l : Lexeme} {r : Reading}
    (h : ofAfter j around l = some r) : r.reach = max (reach ⟨.after j, around⟩) r.level := by
  unfold ofAfter at h
  split at h <;> simp only [Option.some.injEq, reduceCtorEq] at h <;> subst h
  · simp only [reach, level, Expecting.reach, enclosingReach, Enclosing.depth, itemDepth, List.length_cons]
    omega
  · simp only [reach, level, Expecting.reach, enclosingReach, Enclosing.depth, depth, itemDepth_reverse,
      itemDepth, List.length_cons]
    omega
  · simp only [reach, level, Expecting.reach, enclosingReach, Enclosing.depth, memberDepth,
      List.length_cons]
    omega
  · simp only [reach, level, Expecting.reach, enclosingReach, Enclosing.depth, depth,
      memberDepth_reverse, memberDepth, List.length_cons]
    omega

/-- A step goes down no further than to the level at which it ends. -/
theorem reach_step {r r' : Reading} {l : Lexeme} (h : r.step l = some r') :
    r'.reach = max r.reach r'.level := by
  obtain ⟨expecting, around⟩ := r
  cases expecting with
  | value =>
    have hvalue : ofValue around l = some r' := h
    obtain ⟨hlevel, hreach⟩ := reach_ofValue hvalue
    simp only [reach, Expecting.reach] at hreach ⊢
    omega
  | itemOrClose =>
    by_cases hl : l = .closeArray
    · subst hl
      cases h
      simp only [reach, level, Expecting.reach, depth, itemDepth]
      omega
    · have hvalue : ofValue (.array [] :: around) l = some r' := by
        rw [← h]
        cases l with
        | closeArray => exact (hl rfl).elim
        | _ => rfl
      obtain ⟨hlevel, hreach⟩ := reach_ofValue hvalue
      simp only [reach, Expecting.reach, enclosingReach, Enclosing.depth, itemDepth,
        List.length_cons] at hreach hlevel ⊢
      omega
  | keyOrClose =>
    cases l with
    | closeObject =>
      cases h
      simp only [reach, level, Expecting.reach, depth, memberDepth]
      omega
    | string k =>
      cases h
      simp only [reach, level, Expecting.reach, memberDepth]
      omega
    | _ => cases h
  | key before =>
    cases l <;> cases h
    simp only [reach, level, Expecting.reach]
    omega
  | colon before k =>
    cases l <;> cases h
    simp only [reach, level, Expecting.reach, enclosingReach, Enclosing.depth, List.length_cons]
    omega
  | after j => exact reach_ofAfter h

/-- What has been reached once has been reached at the end. -/
theorem reach_le_of_foldlM {ls : List Lexeme} {r r' : Reading} (h : ls.foldlM step r = some r') :
    r.reach ≤ r'.reach := by
  induction ls generalizing r with
  | nil =>
    cases h
    exact Nat.le_refl _
  | cons l ls ih =>
    obtain ⟨s, hs, h⟩ := Option.bind_eq_some_iff.mp h
    have hstep := reach_step hs
    have hrest := ih h
    omega

theorem foldlM_stepWithin {limit : Nat} (ls : List Lexeme) {r : Reading} (hr : r.reach ≤ limit) :
    ls.foldlM (stepWithin limit) r = (ls.foldlM step r).filter (·.reach ≤ limit) := by
  induction ls generalizing r with
  | nil =>
    have hfilter : (some r).filter (·.reach ≤ limit) = some r := by simp [Option.filter_some, hr]
    exact hfilter.symm
  | cons l ls ih =>
    rw [List.foldlM_cons, List.foldlM_cons, stepWithin]
    cases hs : r.step l with
    | none => rfl
    | some s =>
      have hstep := reach_step hs
      by_cases hl : s.level ≤ limit
      · have hfilter : (some s).filter (·.level ≤ limit) = some s := by
          simp [Option.filter_some, hl]
        rw [hfilter]
        exact ih (by omega)
      · have hfilter : (some s).filter (·.level ≤ limit) = none := by
          simp [Option.filter_some, hl]
        rw [hfilter]
        refine (Option.filter_eq_none_iff.mpr fun r' hr' => ?_).symm
        have hle := reach_le_of_foldlM hr'
        have hlevel := level_le_reach s
        simp only [decide_eq_true_eq]
        omega

theorem reach_of_finish {r : Reading} {j : Json} (h : r.finish = some j) : r.reach = j.depth := by
  obtain ⟨expecting, around⟩ := r
  unfold finish at h
  split at h
  · rename_i he ha
    cases h
    cases ha
    cases he
    simp [reach, Expecting.reach, enclosingReach]
  · cases h

end Reading

/-- The limit refuses the values that are nested more deeply, and no others. -/
theorem ofLexemesWithin_eq (limit : Nat) (ls : List Lexeme) :
    ofLexemesWithin limit ls = (ofLexemes ls).filter (·.depth ≤ limit) := by
  have hstart : Reading.reach {} ≤ limit := Nat.zero_le limit
  rw [ofLexemesWithin, Reading.foldlM_stepWithin ls hstart, ofLexemes]
  cases ls.foldlM Reading.step {} with
  | none => rfl
  | some r =>
    rw [Option.bind_some, Option.filter_some]
    cases hj : r.finish with
    | none => split <;> simp [hj]
    | some j =>
      rw [Reading.reach_of_finish hj, Option.filter_some]
      split <;> simp [hj]

theorem ofTextWithin?_eq (limit : Nat) (s : String) :
    ofTextWithin? limit s = (ofText? s).filter (·.depth ≤ limit) := by
  rw [ofTextWithin?, ofText?, ofChars?]
  cases Lexeme.scanAll s.toList with
  | none => rfl
  | some ls => exact ofLexemesWithin_eq limit ls

end Json

end SuitePlan
