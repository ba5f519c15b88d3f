import SuitePlan.Proofs.TagExpr.LegacyCut
import SuitePlan.TagExpr.Grammar

/-! Partners of parentheses, and when the legacy grammar takes a text as one group. It asks whether
the first parenthesis is closed too early, and leaves the last two places aside. -/

namespace SuitePlan

/-- The pairs of parentheses in a text that begins at byte `start`, each with the offsets of both. A
closing one is the partner of the last of those in `opened`, which wait for theirs. -/
def partners (start : Nat) (opened : List Nat) : List Char → List (Nat × Nat)
  | [] => []
  | c :: s =>
    if c = '(' then partners (start + c.utf8Size) (start :: opened) s
    else if c = ')' then
      match opened with
      | [] => partners (start + c.utf8Size) [] s
      | i :: outer => (i, start) :: partners (start + c.utf8Size) outer s
    else partners (start + c.utf8Size) opened s

namespace Legacy

/-- Behind `a` stands the parenthesis that closes a group of `s` in which `d` further ones are open. -/
structure ClosedBehind (d : Int) (s a : List Char) : Prop where
  closing : ∃ b, s = a ++ ')' :: b
  settled : a.foldl depthAfter d = 0
  within : ∀ p, p <+: a → 0 ≤ p.foldl depthAfter d

theorem closedBehind_cons {d : Int} (hd : 0 ≤ d) (c : Char) (s a : List Char) :
    ClosedBehind d (c :: s) a ↔
      (c = ')' ∧ d = 0 ∧ a = []) ∨ ∃ b, a = c :: b ∧ ClosedBehind (depthAfter d c) s b := by
  constructor
  · rintro ⟨⟨b, hb⟩, hs, hw⟩
    cases a with
    | nil =>
      obtain ⟨rfl, -⟩ := List.cons.inj hb
      exact .inl ⟨rfl, hs, rfl⟩
    | cons x a =>
      obtain ⟨rfl, hrest⟩ := List.cons.inj hb
      exact .inr ⟨a, rfl, ⟨b, hrest⟩, hs, fun p hp => hw (c :: p) (List.cons_prefix_cons.mpr ⟨rfl, hp⟩)⟩
  · rintro (⟨rfl, rfl, rfl⟩ | ⟨b, rfl, ⟨e, rfl⟩, hs, hw⟩)
    · refine ⟨⟨s, rfl⟩, rfl, fun p hp => ?_⟩
      rw [List.prefix_nil.mp hp]
      exact Int.le_refl 0
    · refine ⟨⟨e, rfl⟩, hs, fun p hp => ?_⟩
      rcases List.prefix_cons_iff.mp hp with rfl | ⟨q, rfl, hq⟩
      · exact hd
      · exact hw q hq

/-- A text that closes more groups than are open closes the outermost of them somewhere. -/
theorem exists_closedBehind {d : Int} (hd : 0 ≤ d) {p : List Char} (q : List Char)
    (hp : p.foldl depthAfter d < 0) :
    ∃ a b, p = a ++ ')' :: b ∧ ClosedBehind d (p ++ q) a := by
  induction p generalizing d with
  | nil =>
    simp only [List.foldl_nil] at hp
    omega
  | cons c p ih =>
    by_cases hc : c = ')' ∧ d = 0
    · obtain ⟨rfl, rfl⟩ := hc
      exact ⟨[], p, rfl, (closedBehind_cons hd _ _ _).mpr (.inl ⟨rfl, rfl, rfl⟩)⟩
    · have hd' : 0 ≤ depthAfter d c := by
        simp only [depthAfter]
        split_ifs with ho hcl
        · omega
        · have hne : d ≠ 0 := fun h => hc ⟨hcl, h⟩
          omega
        · exact hd
      obtain ⟨a, b, rfl, ha⟩ := ih hd' hp
      exact ⟨c :: a, b, rfl, (closedBehind_cons hd _ _ _).mpr (.inr ⟨a, rfl, ha⟩)⟩

theorem notMem_partners {start p n : Nat} {opened : List Nat} {s : List Char} (hp : p < start)
    (ho : p ∉ opened) : (p, n) ∉ partners start opened s := by
  induction s generalizing start opened with
  | nil => simp [partners]
  | cons c s ih =>
    have hstart : p < start + c.utf8Size := Nat.lt_add_right _ hp
    simp only [partners]
    split_ifs with hopen hclose
    · exact ih hstart (List.not_mem_cons_of_ne_of_not_mem (Nat.ne_of_lt hp) ho)
    · cases opened with
      | nil => exact ih hstart ho
      | cons i outer =>
        have hi := List.ne_of_not_mem_cons ho
        have hrest := ih hstart (List.not_mem_of_not_mem_cons ho)
        simp only [List.mem_cons, Prod.mk.injEq, not_or, not_and]
        exact ⟨fun h => absurd h hi, hrest⟩
    · exact ih hstart ho

theorem closedAt_cons {d : Int} (hd : 0 ≤ d) (start n : Nat) (c : Char) (s : List Char) :
    (∃ a, ClosedBehind d (c :: s) a ∧ n = start + byteSize a) ↔
      (c = ')' ∧ d = 0 ∧ n = start) ∨
        ∃ a, ClosedBehind (depthAfter d c) s a ∧ n = start + c.utf8Size + byteSize a := by
  constructor
  · rintro ⟨a, ha, rfl⟩
    rcases (closedBehind_cons hd c s a).mp ha with ⟨hc, hz, rfl⟩ | ⟨b, rfl, hb⟩
    · exact .inl ⟨hc, hz, rfl⟩
    · exact .inr ⟨b, hb, (Nat.add_assoc _ _ _).symm⟩
  · rintro (⟨hc, hz, rfl⟩ | ⟨b, hb, rfl⟩)
    · exact ⟨[], (closedBehind_cons hd c s []).mpr (.inl ⟨hc, hz, rfl⟩), rfl⟩
    · exact ⟨c :: b, (closedBehind_cons hd c s _).mpr (.inr ⟨b, rfl, hb⟩), Nat.add_assoc _ _ _⟩

/-- The partner of a parenthesis that waits is the one behind which no group is open that was opened
in its own. -/
theorem mem_partners_iff {start p n : Nat} {inner outer : List Nat} {s : List Char} (hp : p < start)
    (hi : p ∉ inner) (ho : p ∉ outer) : (p, n) ∈ partners start (inner ++ p :: outer) s ↔
      ∃ a, ClosedBehind inner.length s a ∧ n = start + byteSize a := by
  induction s generalizing start inner with
  | nil =>
    refine iff_of_false (by simp [partners]) ?_
    rintro ⟨a, ⟨⟨b, hb⟩, -⟩, -⟩
    simp at hb
  | cons c s ih =>
    have hstart : p < start + c.utf8Size := Nat.lt_add_right _ hp
    rw [closedAt_cons (Int.natCast_nonneg _)]
    simp only [partners]
    split_ifs with hopen hclose
    · have hd : depthAfter inner.length c = (start :: inner).length := by simp [depthAfter, hopen]
      rw [← List.cons_append, ih hstart (List.not_mem_cons_of_ne_of_not_mem (Nat.ne_of_lt hp) hi), hd]
      simp [hopen]
    · cases inner with
      | nil =>
        have hrest : (p, n) ∉ partners (start + c.utf8Size) outer s := notMem_partners hstart ho
        have hnone : ¬ ∃ a, ClosedBehind (depthAfter (([] : List Nat).length) c) s a ∧
            n = start + c.utf8Size + byteSize a := by
          rintro ⟨a, ha, -⟩
          have hh := ha.within [] List.nil_prefix
          simp [depthAfter, hclose] at hh
        simp only [List.nil_append, List.mem_cons, hrest, or_false, or_iff_left hnone]
        simp [hclose]
      | cons i inner =>
        have hne : p ≠ i := List.ne_of_not_mem_cons hi
        have hd : depthAfter (i :: inner).length c = inner.length := by simp [depthAfter, hclose]
        rw [List.cons_append, List.mem_cons, ih hstart (List.not_mem_of_not_mem_cons hi), hd]
        refine or_congr (iff_of_false (fun h => hne (Prod.mk.inj h).1) ?_) Iff.rfl
        rintro ⟨-, hz, -⟩
        simp only [List.length_cons] at hz
        omega
    · have hd : depthAfter inner.length c = inner.length := by simp [depthAfter, hopen, hclose]
      rw [ih hstart hi, hd]
      simp [hclose]

theorem foldl_depthAfter_add (d e : Int) (s : List Char) :
    s.foldl depthAfter (d + e) = d + s.foldl depthAfter e := by
  induction s generalizing e with
  | nil => rfl
  | cons c s ih =>
    have hc : depthAfter (d + e) c = d + depthAfter e c := by
      simp only [depthAfter]
      split_ifs <;> omega
    rw [List.foldl_cons, List.foldl_cons, hc, ih]

theorem depth_opening (s : List Char) :
    ('(' :: s).foldl depthAfter 0 = 1 + s.foldl depthAfter 0 := foldl_depthAfter_add 1 0 s

theorem depth_closing (s : List Char) (d : Int) :
    (s ++ [')']).foldl depthAfter d = s.foldl depthAfter d - 1 := by
  rw [List.foldl_append]
  rfl

theorem split_before_last {a p q : List Char} {c : Char} (h : a ++ [c] = p ++ q) (hq : q ≠ []) :
    ∃ r, q = r ++ [c] ∧ a = p ++ r := by
  cases q using List.reverseRecOn with
  | nil => exact absurd rfl hq
  | append_singleton r d =>
    rw [← List.append_assoc] at h
    obtain ⟨ha, hd⟩ := List.append_inj' h rfl
    exact ⟨r, by rw [hd], ha⟩

/-- A text is one group when it begins with a parenthesis that nothing closes before the last two
places, and ends with one. -/
theorem encloses_iff (s : List Char) : encloses s = true ↔
    s.head? = some '(' ∧ s.getLast? = some ')' ∧
      ∀ p q, s = p ++ q → p ≠ [] → 2 ≤ q.length → p.foldl depthAfter 0 ≠ 0 := by
  simp only [encloses, Bool.and_eq_true, decide_eq_true_eq, staysOpen_iff, and_assoc]

theorem byteSize_group (a : List Char) : byteSize ('(' :: (a ++ [')'])) = byteSize a + 2 := by
  have hopen : Char.utf8Size '(' = 1 := rfl
  have hclose : Char.utf8Size ')' = 1 := rfl
  simp only [byteSize, byteSize_append, hopen, hclose]
  omega

theorem exists_inside {s : List Char} (hfirst : s.head? = some '(')
    (hlast : s.getLast? = some ')') : ∃ a, s = '(' :: (a ++ [')']) := by
  obtain ⟨r, rfl⟩ := List.head?_eq_some_iff.mp hfirst
  cases r using List.reverseRecOn with
  | nil => simp at hlast
  | append_singleton a c =>
    simp only [← List.cons_append, List.getLast?_concat, Option.some.injEq] at hlast
    exact ⟨a, by rw [hlast]⟩

/-- No proper beginning of what stands between the parentheses closes more groups than it opens. -/
theorem encloses_inside_iff (a : List Char) : encloses ('(' :: (a ++ [')'])) = true ↔
    ∀ p q, a = p ++ q → q ≠ [] → 0 ≤ p.foldl depthAfter 0 := by
  rw [encloses_iff]
  constructor
  · rintro ⟨-, -, h⟩ p q rfl hq
    by_contra hneg
    obtain ⟨b, e, rfl, hb⟩ := exists_closedBehind (Int.le_refl 0) q (Int.not_le.mp hneg)
    refine h ('(' :: (b ++ [')'])) (e ++ q ++ [')']) (by simp) (List.cons_ne_nil _ _) ?_ ?_
    · have hlen := List.length_pos_iff.mpr hq
      simp only [List.length_append, List.length_singleton]
      omega
    · rw [depth_opening, depth_closing, hb.settled]
      rfl
  · intro h
    refine ⟨rfl, List.getLast?_concat (l := '(' :: a), fun p q hs hp hq => ?_⟩
    obtain ⟨c, p, rfl⟩ := List.exists_cons_of_ne_nil hp
    obtain ⟨rfl, hrest⟩ := List.cons.inj hs
    obtain ⟨r, rfl, ha⟩ := split_before_last hrest (List.length_pos_iff.mp (by omega))
    have hne : r ≠ [] := by
      rintro rfl
      simp at hq
    have hh := h p r ha hne
    rw [depth_opening]
    omega

/-- The offset at which the group is closed that the first character opens. -/
theorem first_partner_iff (a : List Char) (n : Nat) :
    (0, n) ∈ partners 0 [] ('(' :: (a ++ [')'])) ↔
      ∃ b, ClosedBehind 0 (a ++ [')']) b ∧ n = 1 + byteSize b := by
  have h : (0, n) ∈ partners 1 ([] ++ 0 :: []) (a ++ [')']) ↔
      ∃ b, ClosedBehind 0 (a ++ [')']) b ∧ n = 1 + byteSize b :=
    mem_partners_iff Nat.zero_lt_one List.not_mem_nil List.not_mem_nil
  exact h

theorem last_partner_iff (a : List Char) :
    (0, byteSize ('(' :: (a ++ [')'])) - 1) ∈ partners 0 [] ('(' :: (a ++ [')'])) ↔
      a.foldl depthAfter 0 = 0 ∧ ∀ p, p <+: a → 0 ≤ p.foldl depthAfter 0 := by
  have hsize : byteSize ('(' :: (a ++ [')'])) - 1 = 1 + byteSize a := by
    rw [byteSize_group]
    omega
  rw [hsize, first_partner_iff]
  constructor
  · rintro ⟨b, hb, he⟩
    obtain ⟨e, hsplit⟩ := hb.closing
    obtain rfl := eq_of_byteSize_eq hsplit (Nat.add_left_cancel he)
    exact ⟨hb.settled, hb.within⟩
  · rintro ⟨hs, hw⟩
    exact ⟨a, ⟨⟨[], rfl⟩, hs, hw⟩, rfl⟩

/-- Behind the partner of the first parenthesis more groups have been closed than opened inside, and
where more have been, the partner has been met. -/
theorem encloses_inside_iff_partner (a : List Char) : encloses ('(' :: (a ++ [')'])) = true ↔
    ∀ n, (0, n) ∈ partners 0 [] ('(' :: (a ++ [')'])) → byteSize ('(' :: (a ++ [')'])) ≤ n + 2 := by
  have hclose : Char.utf8Size ')' = 1 := rfl
  rw [encloses_inside_iff, byteSize_group]
  constructor
  · intro h n hn
    obtain ⟨b, hb, rfl⟩ := (first_partner_iff a n).mp hn
    obtain ⟨e, he⟩ := hb.closing
    have hsize := congrArg byteSize he
    simp only [byteSize_append, byteSize] at hsize
    by_contra hlt
    have hne : e ≠ [] := by
      rintro rfl
      simp only [byteSize] at hsize
      omega
    obtain ⟨r, rfl, ha⟩ := split_before_last (p := b ++ [')']) (by simpa using he) hne
    have hr : r ≠ [] := by
      rintro rfl
      simp only [List.nil_append, byteSize, hclose] at hsize
      omega
    have hneg := h _ r ha hr
    rw [depth_closing, hb.settled] at hneg
    omega
  · intro h p q ha hq
    by_contra hneg
    obtain ⟨b, e, rfl, hb⟩ := exists_closedBehind (Int.le_refl 0) (q ++ [')']) (Int.not_le.mp hneg)
    rw [← List.append_assoc, ← ha] at hb
    have hn := h _ ((first_partner_iff a _).mpr ⟨b, hb, rfl⟩)
    have hpos : byteSize q ≠ 0 := fun hz => hq (byteSize_eq_zero hz)
    simp only [ha, byteSize_append, byteSize, hclose] at hn
    omega

theorem depth_group (a : List Char) :
    ('(' :: (a ++ [')'])).foldl depthAfter 0 = a.foldl depthAfter 0 := by
  rw [depth_opening, depth_closing]
  omega

theorem last_partner_iff_encloses (a : List Char) :
    (0, byteSize ('(' :: (a ++ [')'])) - 1) ∈ partners 0 [] ('(' :: (a ++ [')'])) ↔
      encloses ('(' :: (a ++ [')'])) = true ∧ ('(' :: (a ++ [')'])).foldl depthAfter 0 = 0 := by
  rw [last_partner_iff, encloses_inside_iff, depth_group]
  constructor
  · rintro ⟨hs, hw⟩
    exact ⟨fun p q hpq _ => hw p ⟨q, hpq.symm⟩, hs⟩
  · rintro ⟨h, hs⟩
    refine ⟨hs, ?_⟩
    rintro p ⟨q, rfl⟩
    by_cases hq : q = []
    · rw [hq, List.append_nil] at hs
      exact Int.le_of_eq hs.symm
    · exact h p q rfl hq

theorem last_partner_iff_positive (a : List Char) :
    (0, byteSize ('(' :: (a ++ [')'])) - 1) ∈ partners 0 [] ('(' :: (a ++ [')'])) ↔
      (∀ p q, '(' :: (a ++ [')']) = p ++ q → p ≠ [] → q ≠ [] → 0 < p.foldl depthAfter 0) ∧
        ('(' :: (a ++ [')'])).foldl depthAfter 0 = 0 := by
  rw [last_partner_iff, depth_group, and_comm]
  refine and_congr_left fun _ => ⟨fun hw p q hs hp hq => ?_, ?_⟩
  · obtain ⟨c, p, rfl⟩ := List.exists_cons_of_ne_nil hp
    obtain ⟨rfl, hrest⟩ := List.cons.inj hs
    obtain ⟨r, rfl, ha⟩ := split_before_last hrest hq
    have hh := hw p ⟨r, ha.symm⟩
    rw [depth_opening]
    omega
  · rintro h p ⟨q, rfl⟩
    have hh := h ('(' :: p) (q ++ [')']) (by simp) (List.cons_ne_nil _ _) (by simp)
    rw [depth_opening] at hh
    omega

/-- A text in parentheses is taken as one group when the first one has no partner before the last two
places. The last one is its partner when, moreover, as many groups are closed as opened, and this is
to say that the depth is positive up to the last place and zero behind it. -/
theorem encloses_iff_partner {s : List Char} (hfirst : s.head? = some '(')
    (hlast : s.getLast? = some ')') :
    (encloses s = true ↔ ∀ n, (0, n) ∈ partners 0 [] s → byteSize s ≤ n + 2) ∧
      ((0, byteSize s - 1) ∈ partners 0 [] s ↔ encloses s = true ∧ s.foldl depthAfter 0 = 0) ∧
      ((0, byteSize s - 1) ∈ partners 0 [] s ↔
        (∀ p q, s = p ++ q → p ≠ [] → q ≠ [] → 0 < p.foldl depthAfter 0) ∧
          s.foldl depthAfter 0 = 0) := by
  obtain ⟨a, rfl⟩ := exists_inside hfirst hlast
  exact ⟨encloses_inside_iff_partner a, last_partner_iff_encloses a, last_partner_iff_positive a⟩

theorem encloses_iff_partner_nested :
    "((é) or (b))".toList.head? = some '(' ∧ "((é) or (b))".toList.getLast? = some ')' ∧
      partners 0 [] "((é) or (b))".toList = [(1, 4), (9, 11), (0, 12)] ∧
      encloses "((é) or (b))".toList = true := by
  have hfirst : "((é) or (b))".toList.head? = some '(' := by decide
  have hlast : "((é) or (b))".toList.getLast? = some ')' := by decide
  have hpairs : partners 0 [] "((é) or (b))".toList = [(1, 4), (9, 11), (0, 12)] := by decide
  refine ⟨hfirst, hlast, hpairs, ((encloses_iff_partner hfirst hlast).2.1.mp ?_).1⟩
  rw [hpairs]
  decide

/-- Two texts that are taken as one group although the last parenthesis is not the partner of the
first: in one of them it has been closed before, in the other it is never closed. -/
theorem encloses_without_partner :
    encloses "())".toList = true ∧ partners 0 [] "())".toList = [(0, 1)] ∧
      Grammar.legacy.parse "())" = .ok (some (.tag ")")) ∧
      encloses "((a)".toList = true ∧ partners 0 [] "((a)".toList = [(1, 3)] ∧
      Grammar.legacy.parse "((a)" = .ok (some (.tag "(a")) := by
  decide +kernel

end Legacy

end SuitePlan
