import SuitePlan.Proofs.Storage.Saving

/-! What saving and removing a file leave as it is. Directories are only added, so a path that has led to a
file still does, and it reads the same unless the file it leads to is the one that was written. -/

namespace SuitePlan

namespace FileTree

/-- Every node is still there. -/
def Grows (t u : FileTree) : Prop := ∀ q n, t.node? q = some n → u.node? q = some n

/-- All files stay as they are but the one that a path leads to in the end. -/
def ChangesOnly (path : String) (t u : FileTree) : Prop :=
  ∀ p content, t.read p = .ok content → t.locate p ≠ u.locate path → u.read p = .ok content

variable {t u v : FileTree} {l q : Location} {n : Node} {path content : String}

theorem read_eq_ok_iff : t.read path = .ok content ↔
    ∃ q, t.locate path = .ok q ∧ t.node? q = some (.file (some content)) := by
  rw [read]
  cases t.locate path with
  | error e => simp [bind, Except.bind]
  | ok q =>
    dsimp only [bind, Except.bind]
    cases hn : t.node? q with
    | none => simp [hn]
    | some n =>
      cases n with
      | dir => simp [hn]
      | file c =>
        cases c with
        | none => simp [hn]
        | some c => simp [hn]

/-- The last step of a way need not lead to a node. -/
theorem walk_last {a : Location} {step : String} (hdot : ¬ (step = "" || step = "."))
    (habove : step ≠ "..") (hlong : ¬ nameLimit < step.utf8ByteSize) :
    t.walk a [step] = .ok (a ++ [step]) := by
  rw [walk_name hdot habove hlong]
  cases t.node? (a ++ [step]) with
  | none => rfl
  | some m =>
    cases m with
    | dir => rfl
    | file c => rfl

/-- A path that leads anywhere is walked from the working directory or from the root, in every tree. -/
theorem exists_walk (h : t.locate path = .ok q) :
    ∃ a steps, (a = [] ∨ a = ["/"]) ∧ ∀ u : FileTree, u.locate path = u.walk a steps := by
  rw [locate] at h
  split_ifs at h with hempty hlong hroot
  · refine ⟨["/"], (Path.stretches path.toList).map String.ofList, .inr rfl, fun u => ?_⟩
    rw [locate, if_neg hempty, if_neg hlong, if_pos hroot]
  · refine ⟨[], (Path.stretches path.toList).map String.ofList, .inl rfl, fun u => ?_⟩
    rw [locate, if_neg hempty, if_neg hlong, if_neg hroot]

namespace Grows

theorem refl (t : FileTree) : t.Grows t := fun _ _ h => h

theorem trans (h : t.Grows u) (h' : u.Grows v) : t.Grows v := fun q n hn => h' q n (h q n hn)

theorem put (hl : t.node? l = none) : t.Grows (t.put l n) := by
  intro q m hq
  have hne : q ≠ l := by
    rintro rfl
    rw [hl] at hq
    cases hq
  rw [node?_put_of_ne hne, hq]

theorem walk (h : t.Grows u) {a : Location} {steps : List String} (hw : t.walk a steps = .ok q) :
    u.walk a steps = .ok q := by
  induction steps generalizing a with
  | nil => exact hw
  | cons step steps ih =>
    by_cases hdot : step = "" || step = "."
    · rw [FileTree.walk, if_pos hdot] at hw ⊢
      exact ih hw
    by_cases habove : step = ".."
    · rw [FileTree.walk, if_neg hdot, if_pos habove] at hw ⊢
      exact ih hw
    by_cases hlong : nameLimit < step.utf8ByteSize
    · rw [FileTree.walk, if_neg hdot, if_neg habove, if_pos hlong] at hw
      cases hw
    rw [walk_name hdot habove hlong] at hw
    cases hn : t.node? (a ++ [step]) with
    | some m =>
      rw [walk_name hdot habove hlong, h _ _ hn]
      rw [hn] at hw
      cases m with
      | dir => exact ih hw
      | file c => exact hw
    | none =>
      -- Nothing was there, so the way ends here, whatever may be there now.
      rw [hn] at hw
      dsimp only at hw
      split_ifs at hw with hs
      rw [List.isEmpty_iff.mp hs, walk_last hdot habove hlong, hw]

theorem locate (h : t.Grows u) (hl : t.locate path = .ok q) : u.locate path = .ok q := by
  obtain ⟨a, steps, -, hwalk⟩ := exists_walk hl
  rw [hwalk] at hl ⊢
  exact h.walk hl

theorem read (h : t.Grows u) (hr : t.read path = .ok content) : u.read path = .ok content := by
  obtain ⟨q, hq, hn⟩ := read_eq_ok_iff.mp hr
  exact read_eq_ok_iff.mpr ⟨q, h.locate hq, h _ _ hn⟩

theorem makeDir (h : t.makeDir path = .ok u) : t.Grows u := by
  rw [FileTree.makeDir] at h
  obtain ⟨l, -, h⟩ := exists_of_bind_eq_ok h
  cases hn : t.node? l with
  | some m =>
    rw [hn] at h
    cases h
  | none =>
    rw [hn] at h
    cases h
    exact .put hn

theorem changesOnly (h : t.Grows u) (path : String) : t.ChangesOnly path u :=
  fun _ _ hr _ => h.read hr

end Grows

theorem node?_erase (h : ¬ l <+: q) : (t.erase l).node? q = t.node? q := by
  rw [node?, node?, erase]
  congr 1
  dsimp only
  induction t.entries with
  | nil => rfl
  | cons x entries ih =>
    obtain ⟨k, m⟩ := x
    by_cases hk : l <+: k
    · have hne : q ≠ k := by
        rintro rfl
        exact h hk
      rw [List.filter_cons_of_neg (by simpa using hk), ih, lookup_cons_eq, if_neg hne]
    · have hkept : l.isPrefixOf k = false := Bool.eq_false_iff.mpr (mt List.isPrefixOf_iff_prefix.mp hk)
      rw [List.filter_cons_of_pos (by simp [hkept]), lookup_cons_eq, lookup_cons_eq, ih]

/-- A way that does not begin below a file never comes there, as it can only end at the file. -/
theorem not_prefix_above {b : Option String} (hl : t.node? l = some (.file b)) {a : Location}
    (h : ¬ l <+: a) : ¬ l <+: above a := by
  intro hp
  rw [above] at hp
  split_ifs at hp with hroot hall
  · exact h hp
  · have hdir : t.node? l = some .dir := by
      have hup : l.all (· = "..") := List.all_eq_true.mpr fun step hstep => by
        rcases List.mem_append.mp (hp.subset hstep) with hstep | hstep
        · exact List.all_eq_true.mp hall step hstep
        · simpa using hstep
      rw [node?, hup, Bool.or_true, if_pos rfl]
    rw [hl] at hdir
    cases hdir
  · exact h (hp.trans (List.dropLast_prefix a))

theorem walk_erase {b : Option String} (hl : t.node? l = some (.file b)) {a : Location}
    {steps : List String} (ha : ¬ l <+: a) (h : t.walk a steps = .ok q) :
    (t.erase l).walk a steps = .ok q ∧ (q = l ∨ ¬ l <+: q) := by
  induction steps generalizing a with
  | nil =>
    cases h
    exact ⟨rfl, .inr ha⟩
  | cons step steps ih =>
    by_cases hdot : step = "" || step = "."
    · rw [walk, if_pos hdot] at h ⊢
      exact ih ha h
    by_cases habove : step = ".."
    · rw [walk, if_neg hdot, if_pos habove] at h ⊢
      exact ih (not_prefix_above hl ha) h
    by_cases hlong : nameLimit < step.utf8ByteSize
    · rw [walk, if_neg hdot, if_neg habove, if_pos hlong] at h
      cases h
    by_cases hhere : a ++ [step] = l
    · rw [walk_name hdot habove hlong, hhere, hl] at h
      dsimp only at h
      split_ifs at h with hs
      rw [List.isEmpty_iff.mp hs, walk_last hdot habove hlong, hhere, Except.ok.inj h]
      exact ⟨rfl, .inl rfl⟩
    · have hout : ¬ l <+: a ++ [step] := fun hp =>
        (List.prefix_concat_iff.mp hp).elim (fun he => hhere he.symm) ha
      rw [walk_name hdot habove hlong] at h ⊢
      rw [node?_erase hout]
      cases hn : t.node? (a ++ [step]) with
      | none =>
        rw [hn] at h
        dsimp only at h ⊢
        split_ifs at h ⊢
        cases h
        exact ⟨rfl, .inr hout⟩
      | some m =>
        rw [hn] at h
        cases m with
        | dir => exact ih hout h
        | file c =>
          dsimp only at h ⊢
          split_ifs at h ⊢
          cases h
          exact ⟨rfl, .inr hout⟩

/-- Where a path leads to before a file is removed, it leads to afterwards. -/
theorem locate_erase {b : Option String} (hl : t.node? l = some (.file b))
    (h : t.locate path = .ok q) : (t.erase l).locate path = .ok q ∧ (q = l ∨ ¬ l <+: q) := by
  obtain ⟨a, steps, ha, hwalk⟩ := exists_walk h
  rw [hwalk] at h ⊢
  refine walk_erase hl (fun hp => ?_) h
  have hdir : t.node? l = some .dir := by
    rcases ha with rfl | rfl
    · rw [List.prefix_nil.mp hp]
      rfl
    · rcases List.prefix_cons_iff.mp hp with rfl | ⟨k, rfl, hk⟩
      · rfl
      · rw [List.prefix_nil.mp hk]
        rfl
  rw [hl] at hdir
  cases hdir

theorem exists_of_remove (h : t.remove path = .ok u) :
    ∃ l b, t.locate path = .ok l ∧ t.node? l = some (.file b) ∧ u = t.erase l := by
  rw [remove] at h
  obtain ⟨l, hl, h⟩ := exists_of_bind_eq_ok h
  cases hn : t.node? l with
  | none =>
    rw [hn] at h
    cases h
  | some m =>
    rw [hn] at h
    cases m with
    | dir => cases h
    | file b =>
      cases h
      exact ⟨l, b, hl, hn, rfl⟩

end FileTree

namespace Storage

open FileTree

variable {t u v : FileTree} {path content : String} {r : Except StorageError Unit}

theorem run_remove_of_ok (h : t.remove path = .ok u) :
    (remove path : StateM FileTree _).run t = (.ok (), u) := by
  show change (·.remove path) t = _
  rw [change, h]

theorem run_remove_of_error {e : StorageError} (h : t.remove path = .error e) :
    (remove path : StateM FileTree _).run t = (.error e, t) := by
  show change (·.remove path) t = _
  rw [change, h]

theorem grows_settle {dir : String} {e : StorageError}
    (h : (makeDirs.settle dir (.error e) : StateM FileTree _).run t = (r, u)) : t.Grows u := by
  rw [run_settle] at h
  split_ifs at h
  · cases h
    exact .refl t
  · cases h
    exact .refl t

/-- Making directories loses nothing, also where it fails in the end. -/
theorem grows_makeDirs {dirs : List String}
    (h : (makeDirs dirs : StateM FileTree _).run t = (r, u)) : t.Grows u := by
  induction dirs generalizing t u r with
  | nil =>
    cases h
    exact .refl t
  | cons dir above ih =>
    rw [makeDirs, run_bind, run_makeDir] at h
    cases hmake : t.makeDir dir with
    | ok v =>
      rw [hmake] at h
      cases h
      exact .makeDir hmake
    | error e =>
      rw [hmake] at h
      cases e with
      | notText | other => exact grows_settle h
      | notFound =>
        dsimp only at h
        rw [run_bind] at h
        generalize hrest : (makeDirs above : StateM FileTree _).run t = rest at h
        obtain ⟨_ | _, v⟩ := rest
        · cases h
          exact ih hrest
        · dsimp only at h
          rw [run_bind, run_makeDir] at h
          cases hagain : v.makeDir dir with
          | ok w =>
            rw [hagain] at h
            cases h
            exact (ih hrest).trans (.makeDir hagain)
          | error e =>
            rw [hagain] at h
            exact (ih hrest).trans (grows_settle h)

/-- All that a save can do: it makes directories, and then it may write the file. -/
theorem save_cases (h : (save path content : StateM FileTree _).run t = (r, u)) :
    t.Grows u ∨ ∃ v l, t.Grows v ∧ v.locate path = .ok l ∧ v.node? l ≠ some .dir ∧
      u = v.put l (.file (some content)) := by
  rw [save, run_bind] at h
  generalize hdirs : (makeDirs (directories path) : StateM FileTree _).run t = made at h
  obtain ⟨_ | _, v⟩ := made
  · cases h
    exact .inl (grows_makeDirs hdirs)
  · dsimp only at h
    rw [run_write] at h
    cases hw : v.write path content with
    | error e =>
      rw [hw] at h
      cases h
      exact .inl (grows_makeDirs hdirs)
    | ok w =>
      rw [hw] at h
      cases h
      obtain ⟨-, l, hl, hdir, rfl⟩ := write_eq_ok_iff.mp hw
      exact .inr ⟨v, l, grows_makeDirs hdirs, hl, hdir, rfl⟩

theorem locate_of_save (h : (save path content : StateM FileTree _).run t = (r, u)) {p : String}
    {q : Location} (hp : t.locate p = .ok q) : u.locate p = .ok q := by
  rcases save_cases h with hg | ⟨v, l, hg, -, hdir, rfl⟩
  · exact hg.locate hp
  · exact locate_put hdir (hg.locate hp)

theorem changesOnly_save (h : (save path content : StateM FileTree _).run t = (r, u)) :
    t.ChangesOnly path u := by
  rcases save_cases h with hg | ⟨v, l, hg, hl, hdir, rfl⟩
  · exact hg.changesOnly path
  · intro p c hr hne
    obtain ⟨q, hq, hn⟩ := read_eq_ok_iff.mp (hg.read hr)
    obtain ⟨q', hq', -⟩ := read_eq_ok_iff.mp hr
    have hqq : q' = q := Except.ok.inj ((hg.locate hq').symm.trans hq)
    have hql : q ≠ l := by
      rintro rfl
      exact hne (by rw [hq', hqq, locate_put hdir hl])
    exact read_eq_ok_iff.mpr ⟨q, locate_put hdir hq, by rw [node?_put_of_ne hql, hn]⟩

/-- So it is where the file that is there is removed before the save. -/
theorem changesOnly_replace (hrm : t.remove path = .ok v)
    (h : (save path content : StateM FileTree _).run v = (r, u)) : t.ChangesOnly path u := by
  obtain ⟨l, b, hl, hfile, rfl⟩ := exists_of_remove hrm
  intro p c hr hne
  obtain ⟨q, hq, hn⟩ := read_eq_ok_iff.mp hr
  obtain ⟨hkept, hout⟩ := locate_erase hfile hq
  have hql : q ≠ l := by
    rintro rfl
    exact hne (by rw [hq, locate_of_save h (locate_erase hfile hl).1])
  have hread : (t.erase l).read p = .ok c :=
    read_eq_ok_iff.mpr ⟨q, hkept, by rw [node?_erase (hout.resolve_left hql), hn]⟩
  exact changesOnly_save h p c hread (by rwa [hkept, ← hq])

end Storage

end SuitePlan
