import SuitePlan.Command.Run
import SuitePlan.Proofs.Distribution.Patterns
import SuitePlan.Proofs.Manifest.Renewal
import SuitePlan.Proofs.Selection.Suite
import SuitePlan.Proofs.Weight.Stored

/-! Whole runs on a tree of files. A run changes no file but the one that its command writes, and none at all
where it gets no specs. A plan is what the other commands print, made of the same specs. -/

namespace SuitePlan

section KeepsFiles

/-- A part of a run that leaves all files as they are. -/
def KeepsFiles {α : Type} (x : ExceptT Failure (StateM FileTree) α) : Prop :=
  ∀ t, (verdict x t).2 = t

variable {α β : Type} {x : ExceptT Failure (StateM FileTree) α}
  {f : α → ExceptT Failure (StateM FileTree) β}

theorem keepsFiles_pure (a : α) : KeepsFiles (pure a) := fun _ => rfl

theorem keepsFiles_throw (e : Failure) : KeepsFiles (throw e : ExceptT Failure (StateM FileTree) α) :=
  fun _ => rfl

theorem KeepsFiles.bind_ok (hx : KeepsFiles x) {t : FileTree} {a : α} (h : (verdict x t).1 = .ok a) :
    verdict (x >>= f) t = verdict (f a) t := by
  rw [verdict_bind, hx t, h]

/-- Where such a part fails, nothing that follows is done. -/
theorem KeepsFiles.bind_error (hx : KeepsFiles x) {t : FileTree} {e : Failure}
    (h : (verdict x t).1 = .error e) : verdict (x >>= f) t = (.error e, t) := by
  rw [verdict_bind, hx t, h]

theorem verdict_lift_bind (y : StateM FileTree α) (t : FileTree) :
    verdict (liftM y >>= f) t = verdict (f (y.run t).1) (y.run t).2 := rfl

theorem verdict_bind_files (hf : ∀ a, KeepsFiles (f a)) (t : FileTree) :
    (verdict (x >>= f) t).2 = (verdict x t).2 := by
  rw [verdict_bind]
  cases (verdict x t).1 with
  | error e => rfl
  | ok a => exact hf a _

theorem KeepsFiles.bind (hx : KeepsFiles x) (hf : ∀ a, KeepsFiles (f a)) : KeepsFiles (x >>= f) := by
  intro t
  cases h : (verdict x t).1 with
  | error e => rw [hx.bind_error h]
  | ok a => rw [hx.bind_ok h, hf a t]

/-- What changes one file only may follow. -/
theorem KeepsFiles.changesOnly_bind (hx : KeepsFiles x) {path : String} {t : FileTree}
    (hf : ∀ a, t.ChangesOnly path (verdict (f a) t).2) :
    t.ChangesOnly path (verdict (x >>= f) t).2 := by
  cases h : (verdict x t).1 with
  | error e =>
    rw [hx.bind_error h]
    exact (FileTree.Grows.refl t).changesOnly path
  | ok a =>
    rw [hx.bind_ok h]
    exact hf a

theorem keepsFiles_read (path : String) :
    KeepsFiles (liftM (Storage.read path : StateM FileTree (Except StorageError String))) :=
  fun _ => rfl

theorem keepsFiles_loadSettings (path : Option String) : KeepsFiles (loadSettings path) := by
  cases path with
  | none => exact keepsFiles_pure _
  | some p =>
    refine (keepsFiles_read p).bind fun content => ?_
    cases content with
    | error e => exact keepsFiles_throw _
    | ok content =>
      dsimp only
      cases Settings.ofText? content with
      | none => exact keepsFiles_throw _
      | some s => exact keepsFiles_pure s

theorem keepsFiles_orNoSpecs (paths : List String) : KeepsFiles (orNoSpecs paths) := by
  rw [orNoSpecs]
  split
  · exact keepsFiles_throw _
  · exact keepsFiles_pure _

theorem keepsFiles_namedSpecs (paths : List String) (list : Option String) :
    KeepsFiles (namedSpecs paths list) := by
  cases list with
  | none => exact keepsFiles_orNoSpecs (paths ++ [])
  | some path =>
    rw [namedSpecs_some]
    refine KeepsFiles.bind ?_ fun more => keepsFiles_orNoSpecs (paths ++ more)
    refine (keepsFiles_read path).bind fun content => ?_
    cases content with
    | error e => exact keepsFiles_throw _
    | ok content => exact keepsFiles_pure _

theorem keepsFiles_chosenSpecs (s : Settings) (paths : List String) :
    KeepsFiles (chosenSpecs s paths) := by
  rw [chosenSpecs]
  cases s.tagExpression with
  | none => exact keepsFiles_pure paths
  | some e =>
    refine KeepsFiles.bind (fun t => ?_) fun r => ?_
    · rw [verdict_selectSuite]
      exact selectSuite_files {} t
    · cases r with
      | error err => exact keepsFiles_throw _
      | ok kept =>
        cases kept with
        | nil => exact keepsFiles_throw _
        | cons p kept => exact keepsFiles_pure _

end KeepsFiles

namespace Command

theorem keepsFiles_settings (i : Invocation) (env : Environment) : KeepsFiles (i.settings env) :=
  (keepsFiles_loadSettings _).bind fun _ => keepsFiles_pure _

theorem keepsFiles_resolveSpecs (g : Given) (s : Settings) : KeepsFiles (resolveSpecs g s) :=
  (keepsFiles_namedSpecs _ _).bind fun paths => keepsFiles_chosenSpecs s paths

theorem resolveSpecs_ne_nil {g : Given} {s : Settings} {t : FileTree} {specs : List String}
    (h : (verdict (resolveSpecs g s) t).1 = .ok specs) : specs ≠ [] := by
  rw [resolveSpecs] at h
  cases hn : (verdict (namedSpecs g.operands g.list) t).1 with
  | error e =>
    rw [(keepsFiles_namedSpecs _ _).bind_error hn] at h
    cases h
  | ok paths =>
    rw [(keepsFiles_namedSpecs _ _).bind_ok hn] at h
    exact chosenSpecs_ne_nil (namedSpecs_ne_nil hn) h

/-- The settings of a command, as the files are. -/
def settingsIn (i : Invocation) (env : Environment) (t : FileTree) : Except Failure Settings :=
  (verdict (i.settings env) t).1

/-- The specs of a command, as the files are. -/
def specsIn (g : Given) (s : Settings) (t : FileTree) : Except Failure (List String) :=
  (verdict (resolveSpecs g s) t).1

/-- The buckets for some specs, as the files are. -/
def bucketsIn (s : Settings) (specs : List String) (t : FileTree) : List (Bucket Float) :=
  ((bucketsOf s specs : StateM FileTree _).run t).1

section

variable {i : Invocation} {env : Environment} {s : Settings} {g : Given} {specs : List String}
  {t u : FileTree}

theorem run_bucketsOf {table : Weights Float}
    (htable : (Weights.ofPathOrEmpty s.weightsPath : StateM FileTree _).run t = (table, t)) :
    (bucketsOf s specs : StateM FileTree _).run t =
      ((spread (weigh (table.map .ofFloat) s.defaultWeight s.suffixRule specs) s.threadCount).map
        (.map Pattern.toFloat), t) := by
  rw [bucketsOf, Storage.run_bind, htable]
  rfl

theorem run_bucketsOf_eq (s : Settings) (specs : List String) (t : FileTree) :
    (bucketsOf s specs : StateM FileTree _).run t = (bucketsIn s specs t, t) := by
  obtain ⟨table, htable, -⟩ := Weights.exists_run_ofPathOrEmpty t s.weightsPath
  rw [bucketsIn, run_bucketsOf htable]

/-- Every spec is in one bucket, and the buckets are as many as the workers or, where there are fewer, as
the specs. -/
theorem bucketsIn_partition (s : Settings) (specs : List String) (t : FileTree) :
    ((bucketsIn s specs t).flatMap Bucket.specs).Perm specs ∧
      (bucketsIn s specs t).length = min (max s.threadCount 1) specs.length := by
  obtain ⟨table, htable, -⟩ := Weights.exists_run_ofPathOrEmpty t s.weightsPath
  rw [bucketsIn, run_bucketsOf htable, Bucket.flatMap_specs_map, List.length_map]
  exact ⟨spread_weigh_perm _ _ _ specs _, by
    rw [length_spread, weigh, List.length_map, bucketCount]⟩

/-- Where no weight is below zero, a run spreads by doubles. -/
theorem bucketsIn_of_nonneg {table : Weights Float} {fallback : Float}
    (htable : (Weights.ofPathOrEmpty s.weightsPath : StateM FileTree _).run t = (table, t))
    (hweights : ∀ e ∈ table.entries, ∀ w ∈ e.2.weight, 0.0 ≤ w)
    (hdefault : s.defaultWeight = .ofFloat fallback) (hfallback : 0.0 ≤ fallback) :
    bucketsIn s specs t = spread (weigh table fallback s.suffixRule specs) s.threadCount := by
  rw [bucketsIn, run_bucketsOf htable, hdefault, spread_ofFloat hweights hfallback]

/-- The commands that are about specs. -/
def Invocation.takesSpecs (i : Invocation) : Bool := .list ∈ i.name.level.options

/-- The file that a command writes, if it writes one. -/
def Invocation.target (i : Invocation) (s : Settings) : Option String :=
  match i.name with
  | .filter | .distribute | .browser => none
  | .manifest | .plan => some s.manifestPath
  | .weights => some (i.given.output.getD s.weightsPath)

theorem keepsFiles_bucketsOf (s : Settings) (specs : List String) :
    KeepsFiles (liftM (bucketsOf s specs : StateM FileTree (List (Bucket Float)))) := fun t =>
  congrArg Prod.snd (run_bucketsOf_eq s specs t)

theorem perform_of_unresolved (hi : i.takesSpecs) {e : Failure} (h : specsIn i.given s t = .error e) :
    verdict (i.perform env s) t = (.error e, t) := by
  have hspecs := fun f : List String → ExceptT Failure (StateM FileTree) String =>
    (keepsFiles_resolveSpecs i.given s).bind_error (f := f) h
  cases hn : i.name with
  | filter | distribute | manifest | plan =>
    simp only [Invocation.perform, hn]
    exact hspecs _
  | browser | weights =>
    rw [Invocation.takesSpecs, hn] at hi
    exact absurd hi (by decide)

theorem perform_filter (hn : i.name = .filter) (h : specsIn i.given s t = .ok specs) :
    verdict (i.perform env s) t = (.ok (String.join (specs.map line)), t) := by
  simp only [Invocation.perform, hn]
  exact (keepsFiles_resolveSpecs i.given s).bind_ok h

theorem perform_distribute (hn : i.name = .distribute) (h : specsIn i.given s t = .ok specs) :
    verdict (i.perform env s) t = (.ok (line (bucketsToJson (bucketsIn s specs t)).pretty), t) := by
  simp only [Invocation.perform, hn]
  refine ((keepsFiles_resolveSpecs i.given s).bind_ok h).trans ?_
  rw [(keepsFiles_bucketsOf s specs).bind_ok rfl]
  rfl

theorem perform_browser (hn : i.name = .browser) (t : FileTree) :
    verdict (i.perform env s) t =
      (.ok (line (((s.browserRule.select s.tagExpression).map Browser.name).getD "default")), t) := by
  simp only [Invocation.perform, hn]
  rfl

theorem verdict_renewManifest (now : Time) (directory : String) (s : Settings) (specs : List String)
    (t : FileTree) :
    let renewed := (Manifest.renew now directory s.tagExpression s.manifestDir specs :
      StateM FileTree _).run t
    verdict (renewManifest now directory s specs) t =
      (renewed.1.mapError Failure.manifestNotWritten, renewed.2) := by
  intro renewed
  rw [renewManifest, verdict_lift_bind]
  cases renewed.1 with
  | error e => rfl
  | ok manifest => rfl

theorem changesOnly_renewManifest (now : Time) (directory : String) (s : Settings)
    (specs : List String) (t : FileTree) :
    t.ChangesOnly s.manifestPath (verdict (renewManifest now directory s specs) t).2 := by
  rw [verdict_renewManifest]
  exact Manifest.changesOnly_renew rfl

theorem changesOnly_updateAt (path : String) (timings : Weights Float) (total : Option Float)
    (budget : Float) (t : FileTree) :
    t.ChangesOnly path ((Weights.updateAt path timings total budget : StateM FileTree _).run t).2 := by
  obtain ⟨existing, hold, -⟩ := Weights.exists_run_ofPathOrEmpty t path
  rw [Weights.updateAt, Storage.run_bind, hold]
  dsimp only
  rw [Storage.run_bind]
  generalize hs : (Storage.save path (existing.update timings total budget).toJson.pretty :
    StateM FileTree _).run t = saved
  obtain ⟨_ | _, v⟩ := saved
  · exact Storage.changesOnly_save hs
  · exact Storage.changesOnly_save hs

theorem changesOnly_updateWeights (timings : String) (g : Given) (s : Settings) (t : FileTree) :
    t.ChangesOnly (g.output.getD s.weightsPath) (verdict (updateWeights timings g s) t).2 := by
  rw [updateWeights, verdict_lift_bind]
  dsimp only
  have hread : (Weights.ofPath timings : StateM FileTree _).run t =
      (Weights.ofContent (t.read timings), t) := Weights.run_ofPath t timings
  rw [hread]
  cases Weights.ofContent (t.read timings) with
  | error e => exact (FileTree.Grows.refl t).changesOnly _
  | ok table =>
    dsimp only
    rw [verdict_lift_bind]
    have hchanges := changesOnly_updateAt (g.output.getD s.weightsPath) table g.totalDuration
      (g.totalWeight.getD s.totalWeight) t
    generalize (Weights.updateAt (g.output.getD s.weightsPath) table g.totalDuration
      (g.totalWeight.getD s.totalWeight) : StateM FileTree _).run t = written at hchanges ⊢
    obtain ⟨_ | _, v⟩ := written
    · exact hchanges
    · exact hchanges

theorem changesOnly_make (now : Time) (directory : String) (s : Settings) (specs : List String)
    (t : FileTree) : t.ChangesOnly s.manifestPath (verdict (Plan.make now directory s specs) t).2 := by
  rw [Plan.make, (keepsFiles_bucketsOf s specs).bind_ok rfl, verdict_bind_files fun _ => keepsFiles_pure _]
  exact changesOnly_renewManifest now directory s specs t

/-- A command changes no file but the one that it writes, also where it fails. -/
theorem changesOnly_perform {path : String} (h : i.target s = some path) (t : FileTree) :
    t.ChangesOnly path (verdict (i.perform env s) t).2 := by
  have hspecs := keepsFiles_resolveSpecs i.given s
  cases hn : i.name with
  | filter | distribute | browser =>
    rw [Invocation.target, hn] at h
    cases h
  | manifest =>
    rw [Invocation.target, hn] at h
    cases h
    simp only [Invocation.perform, hn]
    refine hspecs.changesOnly_bind fun specs => ?_
    rw [verdict_bind_files fun _ => keepsFiles_pure _]
    exact changesOnly_renewManifest env.now env.directory s specs t
  | plan =>
    rw [Invocation.target, hn] at h
    cases h
    simp only [Invocation.perform, hn]
    refine hspecs.changesOnly_bind fun specs => ?_
    rw [verdict_bind_files fun _ => keepsFiles_pure _]
    exact changesOnly_make env.now env.directory s specs t
  | weights =>
    rw [Invocation.target, hn] at h
    cases h
    simp only [Invocation.perform, hn]
    exact changesOnly_updateWeights _ i.given s t

theorem keepsFiles_perform (h : i.target s = none) : KeepsFiles (i.perform env s) := by
  have hspecs := keepsFiles_resolveSpecs i.given s
  cases hn : i.name with
  | filter =>
    simp only [Invocation.perform, hn]
    exact hspecs.bind fun specs => keepsFiles_pure _
  | distribute =>
    simp only [Invocation.perform, hn]
    exact hspecs.bind fun specs => (keepsFiles_bucketsOf s specs).bind fun _ => keepsFiles_pure _
  | browser =>
    simp only [Invocation.perform, hn]
    exact keepsFiles_pure _
  | manifest | plan | weights =>
    rw [Invocation.target, hn] at h
    cases h

theorem exists_of_renewManifest {now : Time} {directory : String} {manifest : Manifest}
    (h : verdict (renewManifest now directory s specs) t = (.ok manifest, u)) :
    u.read s.manifestPath = .ok manifest.toJson.pretty ∧ ∃ v,
      (t.remove s.manifestPath = .ok v ∨ v = t) ∧
      manifest = Manifest.ofTree v now directory s.tagExpression specs := by
  rw [verdict_renewManifest] at h
  generalize hr : (Manifest.renew now directory s.tagExpression s.manifestDir specs :
    StateM FileTree _).run t = renewed at h
  obtain ⟨_ | _, w⟩ := renewed
  · cases h
  · cases h
    obtain ⟨v, hv, hmanifest, hread⟩ := Manifest.exists_of_renew hr
    exact ⟨hread, v, hv, hmanifest⟩

theorem exists_of_make {now : Time} {directory : String} {p : Plan}
    (h : verdict (Plan.make now directory s specs) t = (.ok p, u)) :
    ∃ manifest, verdict (renewManifest now directory s specs) t = (.ok manifest, u) ∧
      p = ⟨s.tagExpression, s.browserRule.select s.tagExpression, specs, bucketsIn s specs t,
        s.manifestPath, manifest.totalScenarios⟩ := by
  rw [Plan.make, (keepsFiles_bucketsOf s specs).bind_ok rfl, verdict_bind] at h
  generalize verdict (renewManifest now directory s specs) t = renewed at h ⊢
  obtain ⟨_ | manifest, v⟩ := renewed
  · cases h
  · cases h
    exact ⟨manifest, rfl, rfl⟩

theorem exists_of_perform_plan (hn : i.name = .plan) {output : String}
    (h : verdict (i.perform env s) t = (.ok output, u)) :
    ∃ specs p, specsIn i.given s t = .ok specs ∧
      verdict (Plan.make env.now env.directory s specs) t = (.ok p, u) ∧
      output = line p.toJson.pretty := by
  cases hspecs : specsIn i.given s t with
  | error e =>
    rw [perform_of_unresolved (by rw [Invocation.takesSpecs, hn]; decide) hspecs] at h
    cases h
  | ok specs =>
    simp only [Invocation.perform, hn] at h
    rw [(keepsFiles_resolveSpecs i.given s).bind_ok hspecs, verdict_bind] at h
    generalize hmade : verdict (Plan.make env.now env.directory s specs) t = made at h
    obtain ⟨_ | p, v⟩ := made
    · cases h
    · cases h
      exact ⟨specs, p, rfl, hmade, rfl⟩

theorem perform_manifest (hn : i.name = .manifest) (h : specsIn i.given s t = .ok specs)
    {manifest : Manifest} (hm : verdict (renewManifest env.now env.directory s specs) t = (.ok manifest, u)) :
    verdict (i.perform env s) t = (.ok (line s.manifestPath), u) := by
  simp only [Invocation.perform, hn]
  rw [(keepsFiles_resolveSpecs i.given s).bind_ok h, verdict_bind, hm]
  rfl

/-- What a run leaves behind whose command has come to something. -/
def Report.of : Except Failure String → Report
  | .ok output => { code := 0, output := output }
  | .error e => { code := 1, message := some e.message }

variable {args : List String}

theorem run_eq_of_ok (hi : ofArguments args env.config = .ok i) (t : FileTree) :
    (run args env : StateM FileTree Report).run t =
      (.of (verdict (i.run env) t).1, (verdict (i.run env) t).2) := by
  have hverdict : ((i.run env).run : StateM FileTree _).run t = verdict (i.run env) t := rfl
  rw [run, hi]
  dsimp only
  rw [Storage.run_bind, hverdict]
  cases (verdict (i.run env) t).1 with
  | ok output => rfl
  | error e => rfl

theorem run_eq_of_error {stop : Stop} (h : ofArguments args env.config = .error stop) :
    ∃ r : Report, r.message = none ∧ (r.code = 0 ∨ r = { code := 2 }) ∧
      ∀ t, (run args env : StateM FileTree Report).run t = (r, t) := by
  cases stop with
  | version => exact ⟨{ code := 0, output := versionText }, rfl, .inl rfl, fun t => by rw [run, h]; rfl⟩
  | help => exact ⟨{ code := 0, output := helpText }, rfl, .inl rfl, fun t => by rw [run, h]; rfl⟩
  | usageError => exact ⟨{ code := 2 }, rfl, .inr rfl, fun t => by rw [run, h]; rfl⟩

theorem verdict_run_of_ok (h : settingsIn i env t = .ok s) :
    verdict (i.run env) t = verdict (i.perform env s) t :=
  (keepsFiles_settings i env).bind_ok h

theorem verdict_run_of_error {e : Failure} (h : settingsIn i env t = .error e) :
    verdict (i.run env) t = (.error e, t) :=
  (keepsFiles_settings i env).bind_error h

/-- A run fails with a message and without output, or is misused and does nothing. -/
theorem report_cases (args : List String) (env : Environment) (t : FileTree) :
    let r := ((run args env : StateM FileTree Report).run t).1
    (r.code = 0 ∧ r.message = none) ∨ (∃ e : Failure, r = { code := 1, message := some e.message }) ∨
      (r = { code := 2 } ∧ ((run args env : StateM FileTree Report).run t).2 = t) := by
  intro r
  cases h : ofArguments args env.config with
  | error stop =>
    obtain ⟨r', hmessage, hcode, hrun⟩ := run_eq_of_error h
    have hr : r = r' := congrArg Prod.fst (hrun t)
    rw [hr, hrun]
    rcases hcode with hcode | hcode
    · exact .inl ⟨hcode, hmessage⟩
    · exact .inr (.inr ⟨hcode, rfl⟩)
  | ok i =>
    have hr : r = .of (verdict (i.run env) t).1 := congrArg Prod.fst (run_eq_of_ok h t)
    rw [hr]
    cases (verdict (i.run env) t).1 with
    | ok output => exact .inl ⟨rfl, rfl⟩
    | error e => exact .inr (.inl ⟨e, rfl⟩)

/-- A run changes no file but the one that its command writes, whatever it comes to. -/
theorem read_of_run {p content : String} (hr : t.read p = .ok content)
    (hp : ∀ i s path, ofArguments args env.config = .ok i → settingsIn i env t = .ok s →
      i.target s = some path →
        t.locate p ≠ ((run args env : StateM FileTree Report).run t).2.locate path) :
    ((run args env : StateM FileTree Report).run t).2.read p = .ok content := by
  cases hi : ofArguments args env.config with
  | error stop =>
    obtain ⟨r, -, -, hrun⟩ := run_eq_of_error hi
    rwa [hrun]
  | ok i =>
    rw [run_eq_of_ok hi] at hp ⊢
    cases hs : settingsIn i env t with
    | error e => rwa [verdict_run_of_error hs]
    | ok s =>
      rw [verdict_run_of_ok hs] at hp ⊢
      cases ht : i.target s with
      | none => rwa [keepsFiles_perform ht]
      | some path => exact changesOnly_perform ht t p content hr (hp i s path hi hs ht)

/-- A run that gets no specs, because none was named, the expression is wrong or no spec satisfies it, says
why and writes nothing. -/
theorem run_of_unresolved (hi : ofArguments args env.config = .ok i) (hs : settingsIn i env t = .ok s)
    (htakes : i.takesSpecs) {e : Failure} (he : specsIn i.given s t = .error e) :
    (run args env : StateM FileTree Report).run t = ({ code := 1, message := some e.message }, t) := by
  rw [run_eq_of_ok hi, verdict_run_of_ok hs, perform_of_unresolved htakes he]
  rfl

theorem exists_of_run {output : String} (h : verdict (i.run env) t = (.ok output, u)) :
    ∃ s, settingsIn i env t = .ok s ∧ verdict (i.perform env s) t = (.ok output, u) := by
  cases hs : settingsIn i env t with
  | error e =>
    rw [verdict_run_of_error hs] at h
    cases h
  | ok s =>
    rw [verdict_run_of_ok hs] at h
    exact ⟨s, rfl, h⟩

/-- A plan names each chosen spec in one bucket. The manifest that it counts the scenarios of is the one of
these specs, and it is there to be read. -/
theorem plan_complete (hn : i.name = .plan) {output : String}
    (h : verdict (i.run env) t = (.ok output, u)) :
    ∃ (s : Settings) (p : Plan), settingsIn i env t = .ok s ∧ output = line p.toJson.pretty ∧
      specsIn i.given s t = .ok p.specs ∧ p.specs ≠ [] ∧
      (p.buckets.flatMap Bucket.specs).Perm p.specs ∧
      p.buckets.length = min (max s.threadCount 1) p.specs.length ∧
      ∃ manifest, p.totalScenarios = manifest.totalScenarios ∧
        u.read p.manifest = .ok manifest.toJson.pretty ∧ ∃ v,
          (t.remove p.manifest = .ok v ∨ v = t) ∧
          manifest = Manifest.ofTree v env.now env.directory p.tagExpression p.specs := by
  obtain ⟨s, hs, hperform⟩ := exists_of_run h
  obtain ⟨specs, p, hspecs, hmake, rfl⟩ := exists_of_perform_plan hn hperform
  obtain ⟨manifest, hmanifest, rfl⟩ := exists_of_make hmake
  obtain ⟨hpart, hlength⟩ := bucketsIn_partition s specs t
  obtain ⟨hread, hof⟩ := exists_of_renewManifest hmanifest
  exact ⟨s, _, hs, rfl, hspecs, resolveSpecs_ne_nil hspecs, hpart, hlength, manifest, rfl, hread, hof⟩

/-- The other commands, run with the same options on the same files, print the parts of the plan. Writing the
manifest alone leaves the same files. -/
theorem plan_of_parts (hn : i.name = .plan) {output : String}
    (h : verdict (i.run env) t = (.ok output, u)) :
    let alone := fun name => verdict (({ i with name := name } : Invocation).run env) t
    ∃ p : Plan, output = line p.toJson.pretty ∧
      alone .filter = (.ok (String.join (p.specs.map line)), t) ∧
      alone .distribute = (.ok (line (bucketsToJson p.buckets).pretty), t) ∧
      alone .browser = (.ok (line ((p.browser.map Browser.name).getD "default")), t) ∧
      alone .manifest = (.ok (line p.manifest), u) := by
  intro alone
  obtain ⟨s, hs, hperform⟩ := exists_of_run h
  obtain ⟨specs, p, hspecs, hmake, rfl⟩ := exists_of_perform_plan hn hperform
  obtain ⟨manifest, hmanifest, rfl⟩ := exists_of_make hmake
  have halone : ∀ name, alone name = verdict (({ i with name := name } : Invocation).perform env s) t :=
    fun name => verdict_run_of_ok (i := { i with name := name }) hs
  refine ⟨_, rfl, ?_, ?_, ?_, ?_⟩
  · exact (halone .filter).trans (perform_filter rfl hspecs)
  · exact (halone .distribute).trans (perform_distribute rfl hspecs)
  · exact (halone .browser).trans (perform_browser rfl t)
  · exact (halone .manifest).trans (perform_manifest rfl hspecs hmanifest)

end

end Command

end SuitePlan
