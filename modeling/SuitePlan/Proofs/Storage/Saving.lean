import SuitePlan.FileTree
import SuitePlan.Proofs.KeyedList
import SuitePlan.Proofs.Path.Parent

/-! Files that are saved. A new node changes no place but its own, so a file that was saved holds what was
written, and the directories made for it are still there when it is saved again. -/

namespace SuitePlan

theorem exists_of_bind_eq_ok {ε α β : Type} {x : Except ε α} {f : α → Except ε β} {b : β}
    (h : x >>= f = .ok b) : ∃ a, x = .ok a ∧ f a = .ok b := by
  cases x with
  | error e => cases h
  | ok a => exact ⟨a, rfl, h⟩

namespace FileTree

variable {t u : FileTree} {l q : Location} {n : Node} {path content : String}

theorem node?_put_self (h : t.node? l ≠ some .dir) : (t.put l n).node? l = some n := by
  rw [node?] at h ⊢
  split_ifs at h ⊢ with hroot
  · exact absurd rfl h
  · rw [put, lookup_cons_eq, if_pos rfl]

theorem node?_put_of_ne (h : q ≠ l) : (t.put l n).node? q = t.node? q := by
  rw [node?, node?, put, lookup_cons_eq, if_neg h, lookup_filter_ne h]

theorem node?_put_of_dir (hl : t.node? l ≠ some .dir) (hq : t.node? q = some .dir) :
    (t.put l n).node? q = some .dir := by
  have hne : q ≠ l := by
    rintro rfl
    exact hl hq
  rw [node?_put_of_ne hne, hq]

/-- Where a step leads that is the name of a node. -/
theorem walk_name {a : Location} {step : String} {steps : List String}
    (hdot : ¬ (step = "" || step = ".")) (habove : step ≠ "..")
    (hlong : ¬ nameLimit < step.utf8ByteSize) :
    t.walk a (step :: steps) =
      match t.node? (a ++ [step]) with
      | some .dir => t.walk (a ++ [step]) steps
      | some (.file _) => if steps.isEmpty then .ok (a ++ [step]) else .error .other
      | none => if steps.isEmpty then .ok (a ++ [step]) else .error .notFound := by
  rw [walk]
  exact (if_neg hdot).trans ((if_neg habove).trans (if_neg hlong))

/-- A node that is put where no directory was leaves all ways as they are. -/
theorem walk_put (hl : t.node? l ≠ some .dir) {a : Location} {steps : List String}
    (h : t.walk a steps = .ok q) : (t.put l n).walk a steps = .ok q := by
  induction steps generalizing a with
  | nil => exact h
  | cons step steps ih =>
    by_cases hdot : step = "" || step = "."
    · rw [walk, if_pos hdot] at h ⊢
      exact ih h
    by_cases habove : step = ".."
    · rw [walk, if_neg hdot, if_pos habove] at h ⊢
      exact ih h
    by_cases hlong : nameLimit < step.utf8ByteSize
    · rw [walk, if_neg hdot, if_neg habove, if_pos hlong] at h
      cases h
    rw [walk_name hdot habove hlong] at h ⊢
    by_cases hhere : a ++ [step] = l
    · -- the way can only end at the new node
      have hend : steps.isEmpty = true ∧ l = q := by
        rw [hhere] at h
        cases hn : t.node? l with
        | none =>
          rw [hn] at h
          split_ifs at h with hs
          exact ⟨hs, Except.ok.inj h⟩
        | some m =>
          cases m with
          | dir => exact absurd hn hl
          | file c =>
            rw [hn] at h
            split_ifs at h with hs
            exact ⟨hs, Except.ok.inj h⟩
      rw [hhere, node?_put_self hl, hend.1, hend.2, List.isEmpty_iff.mp hend.1]
      cases n with
      | dir => rfl
      | file c => rfl
    · rw [node?_put_of_ne hhere]
      cases hn : t.node? (a ++ [step]) with
      | none => rwa [hn] at h
      | some m =>
        rw [hn] at h
        cases m with
        | dir => exact ih h
        | file c => exact h

theorem locate_put (hl : t.node? l ≠ some .dir) (h : t.locate path = .ok q) :
    (t.put l n).locate path = .ok q := by
  rw [locate] at h ⊢
  split_ifs at h ⊢
  all_goals exact walk_put hl h

theorem isDir_iff (t : FileTree) (path : String) :
    t.isDir path = true ↔ ∃ q, t.locate path = .ok q ∧ t.node? q = some .dir := by
  rw [isDir]
  cases t.locate path with
  | ok q => simp
  | error e => simp

theorem isDir_put (hl : t.node? l ≠ some .dir) (h : t.isDir path) : (t.put l n).isDir path := by
  obtain ⟨q, hq, hdir⟩ := (isDir_iff t path).mp h
  exact (isDir_iff _ path).mpr ⟨q, locate_put hl hq, node?_put_of_dir hl hdir⟩

theorem withoutSlash_eq_self (h : path.toList.getLast? ≠ some '/') : withoutSlash path = path := by
  have hdrop : path.toList.reverse.dropWhile (· = '/') = path.toList.reverse := by
    cases hr : path.toList.reverse with
    | nil => rfl
    | cons c r =>
      have hc : c ≠ '/' := by
        rintro rfl
        rw [← List.head?_reverse, hr] at h
        exact h rfl
      rw [List.dropWhile_cons_of_neg (by simpa using hc)]
  rw [withoutSlash, hdrop, List.reverse_reverse, String.ofList_toList]

/-- A file is written to the place its path leads to, which is no directory. -/
theorem write_eq_ok_iff : t.write path content = .ok u ↔
    path.toList.getLast? ≠ some '/' ∧
      ∃ l, t.locate path = .ok l ∧ t.node? l ≠ some .dir ∧ u = t.put l (.file (some content)) := by
  by_cases hend : path.toList.getLast? = some '/'
  · refine iff_of_false (fun h => ?_) fun h => h.1 hend
    obtain ⟨l, -, h⟩ := exists_of_bind_eq_ok h
    rw [if_pos (.inl hend)] at h
    cases h
  · have hroot : path ≠ "/" := by
      rintro rfl
      exact hend rfl
    rw [write, if_neg hroot, withoutSlash_eq_self hend]
    cases t.locate path with
    | error e => simp [bind, Except.bind]
    | ok l =>
      by_cases hdir : t.node? l = some .dir
      · simp [bind, Except.bind, hdir]
      · simp [bind, Except.bind, hend, hdir, @eq_comm _ u]

theorem read_of_write (h : t.write path content = .ok u) : u.read path = .ok content := by
  obtain ⟨-, l, hl, hdir, rfl⟩ := write_eq_ok_iff.mp h
  rw [read, locate_put hdir hl]
  dsimp only [bind, Except.bind]
  rw [node?_put_self hdir]

theorem write_again (h : t.write path content = .ok u) (content' : String) :
    ∃ v, u.write path content' = .ok v := by
  obtain ⟨hend, l, hl, hdir, rfl⟩ := write_eq_ok_iff.mp h
  refine ⟨_, write_eq_ok_iff.mpr ⟨hend, l, locate_put hdir hl, ?_, rfl⟩⟩
  rw [node?_put_self hdir]
  simp

theorem isDir_of_write (h : t.write path content = .ok u) {dir : String} (hd : t.isDir dir) :
    u.isDir dir := by
  obtain ⟨-, l, -, hl, rfl⟩ := write_eq_ok_iff.mp h
  exact isDir_put hl hd

/-- A path that is the same without separators at its end, or is seen from the root. -/
def Settled (path : String) : Prop := path.toList.head? = some '/' ∨ withoutSlash path = path

theorem makeDir_eq (h : Settled path) : t.makeDir path = (do
    let l ← t.locate path
    match t.node? l with
    | some _ => .error .other
    | none => .ok (t.put l .dir)) := by
  have hmake : t.makeDir path = (do
      let l ← t.locate (if path.toList.head? = some '/' then path else withoutSlash path)
      match t.node? l with
      | some _ => .error .other
      | none => .ok (t.put l .dir)) := rfl
  have hpath : (if path.toList.head? = some '/' then path else withoutSlash path) = path := by
    rcases h with h | h
    · rw [if_pos h]
    · rw [h, ite_self]
  rw [hmake, hpath]

theorem isDir_of_makeDir (hs : Settled path) (h : t.makeDir path = .ok u) : u.isDir path := by
  rw [makeDir_eq hs] at h
  obtain ⟨l, hl, h⟩ := exists_of_bind_eq_ok h
  cases hn : t.node? l with
  | some m =>
    rw [hn] at h
    cases h
  | none =>
    rw [hn] at h
    cases h
    have hdir : t.node? l ≠ some .dir := by simp [hn]
    exact (isDir_iff _ _).mpr ⟨l, locate_put hdir hl, node?_put_self hdir⟩

theorem makeDir_of_isDir (hs : Settled path) (h : t.isDir path) :
    t.makeDir path = .error .other := by
  obtain ⟨l, hl, hdir⟩ := (isDir_iff t path).mp h
  rw [makeDir_eq hs, hl]
  show (match t.node? l with | some _ => _ | none => _) = _
  rw [hdir]

end FileTree

namespace Storage

open FileTree

variable {t u : FileTree} {path content : String}

theorem run_bind {α β : Type} (x : StateM FileTree α) (f : α → StateM FileTree β) (t : FileTree) :
    (x >>= f).run t = (f (x.run t).1).run (x.run t).2 := rfl

theorem run_makeDir (path : String) (t : FileTree) :
    (makeDir path : StateM FileTree _).run t =
      match t.makeDir path with
      | .ok u => (.ok (), u)
      | .error e => (.error e, t) := rfl

theorem run_write (path content : String) (t : FileTree) :
    (write path content : StateM FileTree _).run t =
      match t.write path content with
      | .ok u => (.ok (), u)
      | .error e => (.error e, t) := rfl

theorem run_settle (dir : String) (e : StorageError) (t : FileTree) :
    (makeDirs.settle dir (.error e) : StateM FileTree _).run t =
      if t.isDir dir then (.ok (), t) else (.error e, t) := by
  have hrun : (makeDirs.settle dir (.error e) : StateM FileTree _).run t =
      (if t.isDir dir then pure (.ok ()) else pure (.error e) : StateM FileTree _).run t := rfl
  rw [hrun]
  split
  · rfl
  · rfl

theorem isDir_of_settle {dir : String} {e : StorageError}
    (h : (makeDirs.settle dir (.error e) : StateM FileTree _).run t = (.ok (), u)) :
    u.isDir dir := by
  rw [run_settle] at h
  by_cases hdir : t.isDir dir
  · rw [if_pos hdir] at h
    cases h
    exact hdir
  · rw [if_neg hdir] at h
    cases h

theorem run_makeDirs_of_isDir {dir : String} {above : List String} (hs : Settled dir)
    (h : t.isDir dir) :
    (makeDirs (dir :: above) : StateM FileTree _).run t = (.ok (), t) := by
  rw [makeDirs, run_bind, run_makeDir, makeDir_of_isDir hs h]
  show (makeDirs.settle dir (.error .other) : StateM FileTree _).run t = _
  rw [run_settle, if_pos h]

theorem isDir_of_makeDirs {dir : String} {above : List String} (hs : Settled dir)
    (h : (makeDirs (dir :: above) : StateM FileTree _).run t = (.ok (), u)) : u.isDir dir := by
  rw [makeDirs, run_bind, run_makeDir] at h
  cases hmake : t.makeDir dir with
  | ok v =>
    rw [hmake] at h
    cases h
    exact isDir_of_makeDir hs hmake
  | error e =>
    rw [hmake] at h
    cases e with
    | notText | other => exact isDir_of_settle h
    | notFound =>
      -- the directories above are made, and then there is a second try
      dsimp only at h
      rw [run_bind] at h
      generalize (makeDirs above : StateM FileTree _).run t = r at h
      obtain ⟨_ | _, v⟩ := r
      · cases h
      · dsimp only at h
        rw [run_bind, run_makeDir] at h
        cases hagain : v.makeDir dir with
        | ok w =>
          rw [hagain] at h
          cases h
          exact isDir_of_makeDir hs hagain
        | error e =>
          rw [hagain] at h
          exact isDir_of_settle h

/-- The innermost directory of a path is written without separators at its end. -/
theorem settled_of_directories {dir : String} {above : List String}
    (h : directories path = dir :: above) : Settled dir := by
  rw [directories] at h
  cases hlen : path.length with
  | zero =>
    rw [hlen] at h
    cases h
  | succ k =>
    rw [hlen, directories.ancestors] at h
    cases hp : Path.parent? path.toList with
    | none =>
      rw [hp] at h
      cases h
    | some p =>
      rw [hp] at h
      dsimp only at h
      split_ifs at h
      · cases h
      · obtain ⟨rfl, -⟩ := List.cons.inj h
        rcases Path.parent?_slash hp with hhead | hlast
        · exact .inl (by rwa [String.toList_ofList])
        · exact .inr (withoutSlash_eq_self (by rwa [String.toList_ofList]))

/-- What a successful save does: the directories are made, and then the file is written. -/
theorem exists_of_save (h : (save path content : StateM FileTree _).run t = (.ok (), u)) :
    ∃ v, (makeDirs (directories path) : StateM FileTree _).run t = (.ok (), v) ∧
      v.write path content = .ok u := by
  rw [save, run_bind] at h
  generalize (makeDirs (directories path) : StateM FileTree _).run t = r at h ⊢
  obtain ⟨_ | _, v⟩ := r
  · cases h
  · dsimp only at h
    rw [run_write] at h
    cases hw : v.write path content with
    | error e =>
      rw [hw] at h
      cases h
    | ok w =>
      rw [hw] at h
      cases h
      exact ⟨v, rfl, hw⟩

/-- A path that leads to no directory from the working directory is saved without making one. -/
theorem save_of_locate {l : Location} (hd : directories path = [])
    (hend : path.toList.getLast? ≠ some '/') (hl : t.locate path = .ok l)
    (hdir : t.node? l ≠ some .dir) (content : String) :
    (save path content : StateM FileTree _).run t =
      (.ok (), t.put l (.file (some content))) := by
  rw [save, run_bind, hd]
  show (Storage.write path content : StateM FileTree _).run t = _
  rw [run_write, write_eq_ok_iff.mpr ⟨hend, l, hl, hdir, rfl⟩]

theorem read_of_save (h : (save path content : StateM FileTree _).run t = (.ok (), u)) :
    u.read path = .ok content := by
  obtain ⟨v, -, hw⟩ := exists_of_save h
  exact read_of_write hw

theorem save_again (h : (save path content : StateM FileTree _).run t = (.ok (), u))
    (content' : String) :
    ∃ v, (save path content' : StateM FileTree _).run u = (.ok (), v) := by
  obtain ⟨v, hdirs, hw⟩ := exists_of_save h
  obtain ⟨w, hagain⟩ := write_again hw content'
  -- all directories are there since the first time, and nothing is made
  have hmade : (makeDirs (directories path) : StateM FileTree _).run u = (.ok (), u) := by
    cases hd : directories path with
    | nil => rfl
    | cons dir above =>
      have hs := settled_of_directories hd
      rw [hd] at hdirs
      exact run_makeDirs_of_isDir hs (isDir_of_write hw (isDir_of_makeDirs hs hdirs))
  refine ⟨w, ?_⟩
  rw [save, run_bind, hmade]
  show (Storage.write path content' : StateM FileTree _).run u = _
  rw [run_write, hagain]

end Storage

end SuitePlan
