import SuitePlan.Proofs.Path.Spelling
import SuitePlan.Proofs.Selection.Batch
import SuitePlan.Proofs.Selection.Filtering
import SuitePlan.Proofs.TagExpr.Grouping

/-! Selecting from files that are read at the same time. Where the spellings of the listed paths agree, every
order of the steps selects what reading one file after another selects, and joining the texts of
expressions joins what they select. -/

namespace SuitePlan

open KnownTags

/-- What an order of steps comes to that is completed. -/
def Completes {α : Type} (x : OptionT (StateT KnownTags (StateM FileTree)) α) (k : KnownTags)
    (t : FileTree) (a : α) (known : KnownTags) (u : FileTree) : Prop :=
  outcome x.run k t = ((some a, known), u)

/-- Some order of steps is completed, and each that is has the outcome of `y`. What is known at the end is
the same, and the files are as they were. -/
structure Realizes {α : Type} (x : List Move → OptionT (StateT KnownTags (StateM FileTree)) α)
    (y : StateT KnownTags (StateM FileTree) α) (k : KnownTags) (t : FileTree) : Prop where
  completed : ∃ moves a known u, Completes (x moves) k t a known u
  outcome_eq : ∀ moves a known u, Completes (x moves) k t a known u →
    a = (outcome y k t).1.1 ∧ (∀ p, known.find? p = (outcome y k t).1.2.find? p) ∧ u = t

section Realizes

variable {α β : Type} {k : KnownTags} {t : FileTree}

theorem completes_pure_iff {a b : α} {known : KnownTags} {u : FileTree} :
    Completes (pure b) k t a known u ↔ a = b ∧ known = k ∧ u = t := by
  have hpure : outcome (pure b : OptionT (StateT KnownTags (StateM FileTree)) α).run k t =
      ((some b, k), t) := rfl
  rw [Completes, hpure, Prod.mk.injEq, Prod.mk.injEq, Option.some.injEq, and_assoc]
  exact ⟨fun ⟨h, h', h''⟩ => ⟨h.symm, h'.symm, h''.symm⟩, fun ⟨h, h', h''⟩ => ⟨h.symm, h'.symm, h''.symm⟩⟩

theorem completes_map_iff {x : OptionT (StateT KnownTags (StateM FileTree)) α} {f : α → β} {b : β}
    {known : KnownTags} {u : FileTree} :
    Completes (x >>= fun a => pure (f a)) k t b known u ↔ ∃ a, Completes x k t a known u ∧ b = f a := by
  have hbind : outcome (x >>= fun a => pure (f a)).run k t =
      (((outcome x.run k t).1.1.map f, (outcome x.run k t).1.2), (outcome x.run k t).2) := by
    rw [OptionT.run_bind, Option.elimM, outcome_bind]
    cases (outcome x.run k t).1.1 with
    | none => rfl
    | some a => rfl
  rw [Completes, hbind]
  constructor
  · intro h
    obtain ⟨h, hu⟩ := Prod.mk.inj h
    obtain ⟨h, hknown⟩ := Prod.mk.inj h
    obtain ⟨a, ha, rfl⟩ := Option.map_eq_some_iff.mp h
    exact ⟨a, Prod.ext (Prod.ext ha hknown) hu, rfl⟩
  · rintro ⟨a, ha, rfl⟩
    rw [ha]
    rfl

theorem Realizes.of_pure (a : α) (k : KnownTags) (t : FileTree) :
    Realizes (fun _ => pure a) (pure a) k t where
  completed := ⟨[], a, k, t, completes_pure_iff.mpr ⟨rfl, rfl, rfl⟩⟩
  outcome_eq _ _ _ _ h := by
    obtain ⟨rfl, rfl, rfl⟩ := completes_pure_iff.mp h
    exact ⟨rfl, fun _ => rfl, rfl⟩

theorem Realizes.map {x : List Move → OptionT (StateT KnownTags (StateM FileTree)) α}
    {y : StateT KnownTags (StateM FileTree) α} (h : Realizes x y k t) (f : α → β) :
    Realizes (fun moves => x moves >>= fun a => pure (f a)) (y >>= fun a => pure (f a)) k t where
  completed := by
    obtain ⟨moves, a, known, u, ha⟩ := h.completed
    exact ⟨moves, f a, known, u, completes_map_iff.mpr ⟨a, ha, rfl⟩⟩
  outcome_eq moves b known u hb := by
    obtain ⟨a, ha, rfl⟩ := completes_map_iff.mp hb
    obtain ⟨ha, hknown, hu⟩ := h.outcome_eq moves a known u ha
    exact ⟨congrArg f ha, hknown, hu⟩

end Realizes

section Lifted

variable {t : FileTree} {k : KnownTags} {paths : List String} {limit : Nat}

theorem completes_readScheduled_iff {moves : List Move} {tags : List (List Tag)} {known : KnownTags}
    {u : FileTree} :
    Completes (readScheduled limit moves paths) k t tags known u ↔
      ∃ b, ((Batch.start k limit paths).run moves : StateM FileTree (Option Batch)).run t = (some b, u) ∧
        b.isComplete ∧ b.results = tags ∧ b.known = known := by
  obtain ⟨⟨b, v⟩, hrun⟩ : ∃ out,
      ((Batch.start k limit paths).run moves : StateM FileTree (Option Batch)).run t = out := ⟨_, rfl⟩
  have hlift : outcome (liftM ((Batch.start k limit paths).run moves : StateM FileTree (Option Batch)) :
      StateT KnownTags (StateM FileTree) _) k t = ((b, k), v) :=
    congrArg (fun out => ((out.1, k), out.2)) hrun
  have hget : outcome (get : StateT KnownTags (StateM FileTree) KnownTags) k t = ((k, k), t) := rfl
  rw [Completes, hrun, readScheduled, OptionT.run_mk, outcome_bind, hget, outcome_bind, hlift]
  cases b with
  | none =>
    constructor
    · intro h
      cases h
    · rintro ⟨b, h, -⟩
      cases h
  | some b =>
    have hset : outcome (do set b.known; pure (some b.results)) k v =
        ((some b.results, b.known), v) := rfl
    dsimp only
    constructor
    · intro h
      by_cases hb : b.isComplete
      · rw [if_pos hb, hset] at h
        cases h
        exact ⟨b, rfl, hb, rfl, rfl⟩
      · rw [if_neg hb, outcome_pure] at h
        cases h
    · rintro ⟨c, h, hb, rfl, rfl⟩
      cases h
      rw [if_pos hb, hset]

/-- Where the spellings agree, all orders read what reading one file after another reads. -/
theorem realizes_readAllTags (hl : 0 < limit) (ha : Batch.Agree t k paths) :
    Realizes (readScheduled limit · paths) (readAllTags paths) k t := by
  obtain ⟨hfiles, -, -, -, hsequential⟩ := Batch.answers_iff_agree t k paths hl
  obtain ⟨c, ⟨moves, hrun⟩, hcomplete, -, -⟩ := Batch.exists_reachable_in_order t k paths hl
  refine ⟨⟨moves, _, _, _, completes_readScheduled_iff.mpr ⟨c, hrun, hcomplete, rfl, rfl⟩⟩, ?_⟩
  intro moves tags known u h
  obtain ⟨b, hrun, hb, rfl, rfl⟩ := completes_readScheduled_iff.mp h
  obtain ⟨rfl, -⟩ := hfiles moves b u hrun
  obtain ⟨known, hread, hknown⟩ := hsequential ha b ⟨moves, hrun⟩ hb
  rw [hread]
  exact ⟨rfl, fun p => (hknown p).symm, rfl⟩

theorem completes_selectFilesBy_iff {moves : List Move} {g : Grammar} {s : String}
    (hs : isBlankText s = false) {r : Except TagExprError (List String)} {known : KnownTags}
    {u : FileTree} :
    Completes (selectFilesBy limit moves g s paths) k t r known u ↔
      ∃ tags, Completes (readScheduled limit moves paths) k t tags known u ∧
        r = selectPaths g s (paths.zip tags) := by
  unfold selectFilesBy selectFilesWith
  simp only [hs, Bool.false_eq_true, if_false]
  exact completes_map_iff

theorem realizes_selectFiles (hl : 0 < limit) (ha : Batch.Agree t k paths) (g : Grammar) (s : String) :
    Realizes (fun moves => selectFilesBy limit moves g s paths) (selectFiles g s paths) k t := by
  unfold selectFilesBy selectFiles selectFilesWith
  by_cases hs : isBlankText s
  · simp only [hs, if_true]
    exact .of_pure (Except.ok paths) k t
  · simp only [hs, Bool.false_eq_true, if_false]
    exact (realizes_readAllTags hl ha).map fun tags => selectPaths g s (paths.zip tags)

/-- Only the feature files are read, so only their paths have to agree. -/
theorem realizes_selectSuite (hl : 0 < limit) (ha : Batch.Agree t k (paths.filter namesFeature))
    (g : Grammar) (s : String) :
    Realizes (fun moves => selectSuiteBy limit moves g s paths) (selectSuite g s paths) k t := by
  unfold selectSuiteBy selectSuite selectSuiteWith
  by_cases hn : (paths.filter namesFeature).isEmpty
  · simp only [hn, if_true]
    exact .of_pure (Except.ok paths) k t
  · simp only [hn, Bool.false_eq_true, if_false]
    exact (realizes_selectFiles hl ha g s).map (·.map (· ++ paths.filter (!namesFeature ·)))

theorem agree_of_features (h : ∀ p ∈ paths, namesFeature p)
    (hlong : ∀ p ∈ paths, p.utf8ByteSize ≤ FileTree.pathLimit) : Batch.Agree t k paths := by
  intro p hp q hq hkey
  have hlocate : t.locate p = t.locate q :=
    FileTree.locate_eq hkey (Path.endsInName_of_namesFeature (h p hp))
      (Path.endsInName_of_namesFeature (h q hq)) (hlong p hp) (hlong q hq)
  rw [tagsIn, tagsIn, k.find?_congr hkey, FileTree.read, FileTree.read, hlocate]

/-- All spellings of the path of a feature file read it, so the order of the steps makes no difference to a
suite whose paths are not too long. -/
theorem realizes_selectSuite_of_short (hl : 0 < limit)
    (hlong : ∀ p ∈ paths, p.utf8ByteSize ≤ FileTree.pathLimit) (g : Grammar) (s : String) :
    Realizes (fun moves => selectSuiteBy limit moves g s paths) (selectSuite g s paths) k t :=
  realizes_selectSuite hl (agree_of_features (fun _ hp => (List.mem_filter.mp hp).2) fun p hp =>
    hlong p (List.mem_of_mem_filter hp)) g s

end Lifted

/-- The listed paths have the tags that they have with `k`, be these known already or still to be read. -/
def Fits (t : FileTree) (k : KnownTags) (paths : List String) (c : KnownTags) : Prop :=
  ∀ p ∈ paths, tagsIn t c p = tagsIn t k p

section Fits

variable {t : FileTree} {k c : KnownTags} {paths qs : List String}

theorem Fits.agree (h : Fits t k paths c) (ha : Batch.Agree t k paths) (hq : ∀ q ∈ qs, q ∈ paths) :
    Batch.Agree t c qs := by
  intro p hp q hq' hkey
  rw [h p (hq p hp), h q (hq q hq')]
  exact ha p (hq p hp) q (hq q hq') hkey

theorem Fits.learn (h : Fits t k paths c) (ha : Batch.Agree t k paths) {q : String} (hq : q ∈ paths) :
    Fits t k paths (KnownTags.learn t c q) := by
  intro p hp
  cases hf : c.find? q with
  | some tags =>
    rw [KnownTags.learn, if_pos (Option.isSome_of_eq_some hf)]
    exact h p hp
  | none =>
    rw [KnownTags.learn, if_neg (by simp [hf]), tagsIn, find?_insert]
    by_cases hkey : pathKey p = pathKey q
    · have hread : tagsIn t c q = tagsOfRead (t.read q) := by rw [tagsIn, hf, Option.getD_none]
      rw [if_pos hkey, Option.getD_some, ← hread, h q hq, ha p hp q hq hkey]
    · rw [if_neg hkey]
      exact h p hp

theorem Fits.learnAll (h : Fits t k paths c) (ha : Batch.Agree t k paths) (hq : ∀ q ∈ qs, q ∈ paths) :
    Fits t k paths (KnownTags.learnAll t c qs) := by
  induction qs generalizing c with
  | nil => exact h
  | cons q qs ih =>
    exact ih (h.learn ha (hq q List.mem_cons_self)) fun p hp => hq p (List.mem_cons_of_mem q hp)

end Fits

/-- Some order of the steps is completed, and each that is keeps these paths and leaves tags known that
fit. -/
structure Keeps (t : FileTree) (k : KnownTags) (paths : List String) (limit : Nat) (s : String)
    (qs : List String) (c : KnownTags) (kept : List String) : Prop where
  completed : ∃ moves known u,
    Completes (selectFilesBy limit moves .precedence s qs) c t (.ok kept) known u
  only : ∀ moves r known u, Completes (selectFilesBy limit moves .precedence s qs) c t r known u →
    r = .ok kept ∧ Fits t k paths known ∧ u = t

section Keeps

variable {t : FileTree} {k c : KnownTags} {paths qs : List String} {limit : Nat} {s : String}

theorem keeps_of_accepted {e : TagExpr} (hs : isBlankText s = false)
    (h : Grammar.precedence.parse s = .ok (some e)) (hl : 0 < limit) (ha : Batch.Agree t k paths)
    (hc : Fits t k paths c) (hq : ∀ q ∈ qs, q ∈ paths) :
    Keeps t k paths limit s qs c (qs.filter fun p => e.eval (tagsIn t k p)) := by
  have hfits := hc.learnAll ha hq
  have hfilter : (qs.filter fun p => holds (some e) (tagsIn t (learnAll t c qs) p)) =
      qs.filter fun p => e.eval (tagsIn t k p) :=
    List.filter_congr fun p hp => congrArg e.eval (hfits p (hq p hp))
  have hout := outcome_selectFiles hs h qs c t
  rw [hfilter] at hout
  obtain ⟨⟨moves, r, known, u, hr⟩, honly⟩ := realizes_selectFiles hl (hc.agree ha hq) .precedence s
  rw [hout] at honly
  refine ⟨⟨moves, known, u, ?_⟩, fun moves r known u hr => ?_⟩
  · rwa [(honly moves r known u hr).1] at hr
  · obtain ⟨hr, hknown, hu⟩ := honly moves r known u hr
    refine ⟨hr, fun p hp => ?_, hu⟩
    rw [tagsIn, hknown p]
    exact hfits p hp

/-- No path is kept that was not listed, and the order stays, also where spellings differ. -/
theorem selectFilesBy_sublist {moves : List Move} {g : Grammar} {kept : List String}
    {known : KnownTags} {u : FileTree}
    (h : Completes (selectFilesBy limit moves g s qs) c t (.ok kept) known u) : kept.Sublist qs := by
  cases hs : isBlankText s with
  | true =>
    rw [selectFilesBy, selectFilesWith, if_pos hs] at h
    obtain ⟨hkept, -⟩ := completes_pure_iff.mp h
    cases hkept
    exact List.Sublist.refl _
  | false =>
    obtain ⟨tags, -, hkept⟩ := (completes_selectFilesBy_iff hs).mp h
    obtain ⟨p, rfl⟩ := selectPaths_eq_ok hkept.symm
    exact (List.filter_sublist.map _).trans (map_fst_zip_sublist qs tags)

theorem exists_filter_of_completes (hl : 0 < limit) (ha : Batch.Agree t c qs) {moves : List Move}
    {g : Grammar} {kept : List String} {known : KnownTags} {u : FileTree}
    (h : Completes (selectFilesBy limit moves g s qs) c t (.ok kept) known u) :
    ∃ keep : String → Bool, kept = qs.filter keep := by
  have hout := ((realizes_selectFiles hl ha g s).outcome_eq moves _ known u h).1
  by_cases hs : isBlankText s
  · rw [selectFiles, selectFilesWith, if_pos hs, outcome_pure] at hout
    cases hout
    exact ⟨fun _ => true, by simp⟩
  · rw [selectFiles, selectFilesWith, if_neg hs, outcome_bind, outcome_readAllTags, outcome_pure] at hout
    obtain ⟨p, rfl⟩ := selectPaths_eq_ok hout.symm
    exact ⟨_, map_fst_filter_zip_map _ p qs⟩

end Keeps

/-- With the files as they are, joining the texts of two expressions joins what they select. Paths that
are the same have to have the same tags, known or read. From all that is known while they have these, every
order of the steps keeps the same paths, and of the paths that the first text keeps the second one keeps
those that both texts in `and` keep. -/
theorem selectFiles_joined {s₁ s₂ : String} {r₁ r₂ : Option TagExpr}
    (hs₁ : isBlankText s₁ = false) (hs₂ : isBlankText s₂ = false)
    (h₁ : Grammar.precedence.parse s₁ = .ok r₁) (h₂ : Grammar.precedence.parse s₂ = .ok r₂)
    {t : FileTree} {k : KnownTags} {paths : List String} {limit : Nat} (hl : 0 < limit)
    (ha : Batch.Agree t k paths) :
    (∃ kept₁ kept₂ both, ∀ c, Fits t k paths c →
      let keeps := fun s qs kept => Keeps t k paths limit s qs c kept
      keeps s₁ paths kept₁ ∧
      keeps s₂ paths kept₂ ∧
      keeps ("(" ++ s₁ ++ ") and (" ++ s₂ ++ ")") paths both ∧
      keeps s₂ kept₁ both ∧
      keeps ("(" ++ s₁ ++ ") or (" ++ s₂ ++ ")") paths (paths.filter fun p => p ∈ kept₁ ∨ p ∈ kept₂) ∧
      keeps ("not (" ++ s₁ ++ ")") paths (paths.filter (· ∉ kept₁)) ∧
      keeps ("(" ++ s₁ ++ ")") paths kept₁) ∧
    (∀ c, Fits t k paths c → ∀ moves g s kept known u,
      Completes (selectFilesBy limit moves g s paths) c t (.ok kept) known u →
        ∀ p ∈ kept, kept.count p = paths.count p) ∧
    ∀ moves g s qs c kept known u,
      Completes (selectFilesBy limit moves g s qs) c t (.ok kept) known u → kept.Sublist qs := by
  obtain ⟨e₁, rfl⟩ := exists_of_accepted h₁ hs₁
  obtain ⟨e₂, rfl⟩ := exists_of_accepted h₂ hs₂
  have hand := parse_and_groups h₁ h₂
  have hor := parse_or_groups h₁ h₂
  have hnot := parse_not_group h₁
  have hgroup := parse_group h₁
  have hmem : ∀ (e : TagExpr) (p : String),
      p ∈ paths.filter (fun p => e.eval (tagsIn t k p)) ↔ p ∈ paths ∧ e.eval (tagsIn t k p) :=
    fun e p => List.mem_filter
  refine ⟨⟨paths.filter fun p => e₁.eval (tagsIn t k p), paths.filter fun p => e₂.eval (tagsIn t k p),
    paths.filter fun p => e₁.eval (tagsIn t k p) && e₂.eval (tagsIn t k p), fun c hc => ?_⟩, ?_, ?_⟩
  · intro keeps
    have hkeeps : ∀ {s : String} {e : TagExpr}, isBlankText s = false →
        Grammar.precedence.parse s = .ok (some e) →
          keeps s paths (paths.filter fun p => e.eval (tagsIn t k p)) :=
      fun hs h => keeps_of_accepted hs h hl ha hc fun _ hp => hp
    refine ⟨hkeeps hs₁ h₁, hkeeps hs₂ h₂, hkeeps (isBlankText_of_accepted hand) hand, ?_, ?_, ?_,
      hkeeps (isBlankText_of_accepted hgroup) hgroup⟩
    · have hsub : ∀ p ∈ paths.filter fun p => e₁.eval (tagsIn t k p), p ∈ paths := fun p hp =>
        List.mem_of_mem_filter hp
      have hh := keeps_of_accepted hs₂ h₂ hl ha hc hsub
      rw [List.filter_filter] at hh
      simpa only [Bool.and_comm] using hh
    · have hfilter : paths.filter (fun p => (TagExpr.or e₁ e₂).eval (tagsIn t k p)) =
          paths.filter fun p => p ∈ paths.filter (fun p => e₁.eval (tagsIn t k p)) ∨
            p ∈ paths.filter (fun p => e₂.eval (tagsIn t k p)) := by
        apply List.filter_congr
        intro p hp
        simp [hmem, hp, TagExpr.eval]
      exact hfilter ▸ hkeeps (isBlankText_of_accepted hor) hor
    · have hfilter : paths.filter (fun p => (TagExpr.not e₁).eval (tagsIn t k p)) =
          paths.filter fun p => p ∉ paths.filter fun p => e₁.eval (tagsIn t k p) := by
        apply List.filter_congr
        intro p hp
        simp [hmem, hp, TagExpr.eval]
      exact hfilter ▸ hkeeps (isBlankText_of_accepted hnot) hnot
  · intro c hc moves g s kept known u h p hp
    obtain ⟨keep, rfl⟩ := exists_filter_of_completes hl (hc.agree ha fun _ hp => hp) h
    exact List.count_filter (List.mem_filter.mp hp).2
  · intro moves g s qs c kept known u h
    exact selectFilesBy_sublist h

theorem selectFiles_joined_twice :
    let t : FileTree := ⟨[(["a.feature"], .file (some "@A @C\nFeature: a\n")),
      (["b.feature"], .file (some "# b\n\n@x @b\nFeature: b\n"))]⟩
    let paths := ["b.feature", "a.feature", "c.feature", "b.feature"]
    let known := (outcome (readTags "a.feature") {} t).1.2
    isBlankText "@A or\t@B" = false ∧ isBlankText "not @C" = false ∧ Batch.Agree t {} paths ∧
      Fits t {} paths known ∧ ∃ kept both, Keeps t {} paths 8 "@A or\t@B" paths {} kept ∧
        Keeps t {} paths 8 "(@A or\t@B) and (not @C)" paths known both ∧
        Keeps t {} paths 8 "not @C" kept known both := by
  intro t paths known
  have hs₁ : isBlankText "@A or\t@B" = false := by decide
  have hs₂ : isBlankText "not @C" = false := by decide
  have h₁ : Grammar.precedence.parse "@A or\t@B" = .ok (some (.or (.tag "@A") (.tag "@B"))) := by decide +kernel
  have h₂ : Grammar.precedence.parse "not @C" = .ok (some (.not (.tag "@C"))) := by decide +kernel
  have hagree : Batch.Agree t {} paths := Batch.agree_of_unique (by decide)
  have hempty : Fits t {} paths {} := fun _ _ => rfl
  have hknown : Fits t {} paths known := by
    have hread : known = learn t {} "a.feature" := by
      simp only [known, outcome_readTags]
    rw [hread]
    exact hempty.learn hagree (by decide)
  obtain ⟨⟨kept, _, both, hall⟩, -⟩ :=
    selectFiles_joined hs₁ hs₂ h₁ h₂ (show 0 < 8 by decide) hagree
  obtain ⟨hkept, -⟩ := hall {} hempty
  obtain ⟨-, -, hboth, hagain, -⟩ := hall known hknown
  have hjoined : "(" ++ "@A or\t@B" ++ ") and (" ++ "not @C" ++ ")" = "(@A or\t@B) and (not @C)" := by
    decide
  rw [hjoined] at hboth
  exact ⟨hs₁, hs₂, hagree, hknown, kept, both, hkept, hboth, hagain⟩

/-- The path of a file with a separator at its end is the same path and cannot be read. While both are
read at once, a text may keep one path of several that are the same, and `not` may then keep none. So may
`not` after something else has been asked for. -/
theorem selections_differ :
    let t : FileTree := ⟨[(["a.feature"], .file (some "@A\nFeature: a\n"))]⟩
    let paths := ["a.feature", "a.feature", "a.feature/"]
    let select := fun s paths k => (outcome (selectFiles .precedence s paths) k t).1.1
    (∃ moves known, Completes (selectFilesBy 8 moves .precedence "@A" paths) {} t (.ok ["a.feature"]) known t) ∧
    (∃ moves known, Completes (selectFilesBy 8 moves .precedence "not (@A)" paths) {} t (.ok []) known t) ∧
    select "@A" ["a.feature"] (outcome (readTags "a.feature/") {} t).1.2 = .ok [] ∧
    select "not (@A)" ["a.feature"] {} = .ok [] := by
  intro t paths select
  have hraced : ∃ moves known,
      Completes (readScheduled 8 moves paths) {} t [["@A"], [], []] known t := by
    refine ⟨[.spawn, .spawn, .spawn, .advance 0, .advance 2, .advance 0, .advance 2, .advance 0,
      .advance 0, .advance 2, .advance 2, .advance 1, .advance 1, .advance 0, .advance 1, .advance 2,
      .advance 0, .advance 1, .advance 2], _, completes_readScheduled_iff.mpr
      ⟨⟨⟨[(["a.feature".toList], [])]⟩, 8, [], [.collected, .collected, .collected],
        [["@A"], [], []]⟩, ?_, rfl, rfl, rfl⟩⟩
    change @Eq (Option Batch × FileTree) _ _
    decide +kernel
  have hturn : ∃ moves known,
      Completes (readScheduled 8 moves paths) {} t [["@A"], ["@A"], ["@A"]] known t := by
    obtain ⟨b, ⟨moves, hrun⟩, hb, hresults, -⟩ :=
      Batch.exists_reachable_in_order t {} paths (show 0 < 8 by decide)
    have hread : paths.map (tagsIn t (learnAll t {} paths)) = [["@A"], ["@A"], ["@A"]] := by decide +kernel
    exact ⟨moves, _, completes_readScheduled_iff.mpr ⟨b, hrun, hb, hresults.trans hread, rfl⟩⟩
  have hs : isBlankText "@A" = false := by decide
  have hs' : isBlankText "not (@A)" = false := by decide
  have h : Grammar.precedence.parse "@A" = .ok (some (.tag "@A")) := by decide +kernel
  have h' : Grammar.precedence.parse "not (@A)" = .ok (some (.not (.tag "@A"))) := by decide +kernel
  refine ⟨?_, ?_, ?_, ?_⟩
  · obtain ⟨moves, known, hread⟩ := hraced
    refine ⟨moves, known, (completes_selectFilesBy_iff hs).mpr ⟨_, hread, ?_⟩⟩
    rw [selectPaths_of_accepted hs h]
    rfl
  · obtain ⟨moves, known, hread⟩ := hturn
    refine ⟨moves, known, (completes_selectFilesBy_iff hs').mpr ⟨_, hread, ?_⟩⟩
    rw [selectPaths_of_accepted hs' h']
    rfl
  · simp only [select, outcome_selectFiles hs h, outcome_readTags]
    decide +kernel
  · simp only [select, outcome_selectFiles hs' h']
    decide +kernel

end SuitePlan
