import SuitePlan.Proofs.Selection.Batch
import SuitePlan.Selection.Sharing

/-! Which requests may replace what is known of a path: those that looked it up in vain and have not
recorded what they read. All others leave it alone, whatever the order of the steps and the files. -/

namespace SuitePlan

open KnownTags

/-- A request that is going to record tags of a path, where they are or may come out different. -/
def Request.Threatens (path : String) (tags : List Tag) : Request → Prop
  | .read p => pathKey p = pathKey path ∧ ∃ files : FileTree, tagsOfRead (files.read p) ≠ tags
  | .record p other => pathKey p = pathKey path ∧ other ≠ tags
  | _ => False

variable {path : String} {tags : List Tag}

theorem Request.Step.keeps {files : FileTree} {r s : Request} {k l : KnownTags}
    (h : Request.Step files r k s l) (hk : k.find? path = some tags) (hr : ¬ r.Threatens path tags) :
    l.find? path = some tags ∧ ¬ s.Threatens path tags := by
  cases h with
  | found => exact ⟨hk, id⟩
  | @missed _ p hp =>
    refine ⟨hk, ?_⟩
    rintro ⟨hkey, -⟩
    rw [k.find?_congr hkey, hk] at hp
    cases hp
  | read _ p => exact ⟨hk, fun ⟨hkey, hne⟩ => hr ⟨hkey, files, hne⟩⟩
  | record _ p other =>
    refine ⟨?_, id⟩
    rw [find?_insert]
    split
    · next hkey =>
      by_cases hother : other = tags
      · rw [hother]
      · exact (hr ⟨hkey.symm, hother⟩).elim
    · exact hk

theorem outcome_step_keeps {r : Request} {k : KnownTags} (files : FileTree)
    (hk : k.find? path = some tags) (hr : ¬ r.Threatens path tags) :
    let next := outcome r.step k files
    next.1.2.find? path = some tags ∧ ¬ next.1.1.Threatens path tags ∧ next.2 = files := by
  by_cases hd : ∃ result, r = .done result
  · obtain ⟨result, rfl⟩ := hd
    exact ⟨hk, id, rfl⟩
  · obtain ⟨hstep, hfiles⟩ := Request.step_outcome files (fun result he => hd ⟨result, he⟩) k
    obtain ⟨hkept, hquiet⟩ := hstep.keeps hk hr
    exact ⟨hkept, hquiet, hfiles⟩

theorem Batch.Step.keeps {files : FileTree} {b c : Batch} (h : Batch.Step files b c)
    (hk : b.known.find? path = some tags)
    (hb : ∀ r, .running r ∈ b.tasks → ¬ r.Threatens path tags) :
    c.known.find? path = some tags ∧ ∀ r, .running r ∈ c.tasks → ¬ r.Threatens path tags := by
  have hset : ∀ {i : Nat} {task : Task}, (∀ r, .running r = task → ¬ r.Threatens path tags) →
      ∀ r, .running r ∈ b.tasks.set i task → ¬ r.Threatens path tags := by
    intro i task htask r hr
    rcases List.mem_or_eq_of_mem_set hr with hr | hr
    · exact hb r hr
    · exact htask r hr
  cases h with
  | spawn =>
    refine ⟨hk, fun r hr => ?_⟩
    rcases List.mem_append.mp hr with hr | hr
    · exact hb r hr
    · simp at hr
  | acquire =>
    refine ⟨hk, hset fun r hr => ?_⟩
    cases hr
    exact id
  | @request i r s k hi hstep =>
    obtain ⟨hkept, hs⟩ := hstep.keeps hk (hb r (List.mem_of_getElem? hi))
    refine ⟨hkept, hset fun r hr => ?_⟩
    cases hr
    exact hs
  | release => exact ⟨hk, hset fun r hr => nomatch hr⟩
  | collect => exact ⟨hk, hset fun r hr => nomatch hr⟩

namespace Sharing

variable {s s' : Sharing}

/-- A request that has begun, on its own or in a batch. -/
def InProgress (s : Sharing) (r : Request) : Prop :=
  r ∈ s.requests ∨ ∃ b ∈ s.batches, .running r ∈ b.tasks

/-- What is known of a path, and that no request in progress is going to replace it. -/
structure Keeps (s : Sharing) (path : String) (tags : List Tag) : Prop where
  known : s.known.find? path = some tags
  quiet : ∀ r, s.InProgress r → ¬ r.Threatens path tags

theorem proceed_eq {i : Nat} {r : Request} (hi : s.requests[i]? = some r) :
    s.proceed i = some { s with
      known := (outcome r.step s.known s.files).1.2
      files := (outcome r.step s.known s.files).2
      requests := s.requests.set i (outcome r.step s.known s.files).1.1 } := by
  rw [proceed, hi]
  rfl

theorem Keeps.proceed {i : Nat} (hs : s.Keeps path tags) (h : s.proceed i = some s') :
    s'.Keeps path tags := by
  cases hi : s.requests[i]? with
  | none =>
    rw [Sharing.proceed, hi] at h
    cases h
  | some r =>
    have hquiet := hs.quiet r (.inl (List.mem_of_getElem? hi))
    obtain ⟨hkept, hnext, -⟩ := outcome_step_keeps s.files hs.known hquiet
    rw [proceed_eq hi] at h
    cases h
    refine ⟨hkept, fun q hq => ?_⟩
    rcases hq with hq | hq
    · rcases List.mem_or_eq_of_mem_set hq with hq | rfl
      · exact hs.quiet q (.inl hq)
      · exact hnext
    · exact hs.quiet q (.inr hq)

theorem Keeps.move {j : Nat} {move : Move} (hs : s.Keeps path tags) (h : s.move j move = some s') :
    s'.Keeps path tags := by
  rw [Sharing.move] at h
  cases hj : s.batches[j]? with
  | none =>
    rw [hj] at h
    cases h
  | some b =>
    have hb : b ∈ s.batches := List.mem_of_getElem? hj
    rw [hj] at h
    dsimp only at h
    cases hm : (({ b with known := s.known } : Batch).move move : StateM FileTree _).run s.files with
    | mk next files =>
      rw [hm] at h
      cases next with
      | none => cases h
      | some c =>
        cases h
        obtain ⟨hstep, rfl⟩ := Batch.step_of_move hm
        obtain ⟨hkept, hc⟩ := hstep.keeps hs.known fun r hr => hs.quiet r (.inr ⟨b, hb, hr⟩)
        refine ⟨hkept, fun r hr => ?_⟩
        rcases hr with hr | ⟨d, hd, hr⟩
        · exact hs.quiet r (.inl hr)
        · rcases List.mem_or_eq_of_mem_set hd with hd | rfl
          · exact hs.quiet r (.inr ⟨d, hd, hr⟩)
          · exact hc r hr

theorem Keeps.step {event : Event} (hs : s.Keeps path tags) (he : event ≠ .clear)
    (h : s.step event = some s') : s'.Keeps path tags := by
  cases event with
  | ask p =>
    cases h
    refine ⟨hs.known, fun r hr => ?_⟩
    rcases hr with hr | hr
    · rcases List.mem_append.mp hr with hr | hr
      · exact hs.quiet r (.inl hr)
      · rw [List.mem_singleton.mp hr]
        exact id
    · exact hs.quiet r (.inr hr)
  | askAll limit paths =>
    cases h
    refine ⟨hs.known, fun r hr => ?_⟩
    rcases hr with hr | ⟨b, hb, hr⟩
    · exact hs.quiet r (.inl hr)
    · rcases List.mem_append.mp hb with hb | hb
      · exact hs.quiet r (.inr ⟨b, hb, hr⟩)
      · rw [List.mem_singleton.mp hb] at hr
        cases hr
  | proceed i => exact hs.proceed h
  | move j move => exact hs.move h
  | change files =>
    cases h
    exact ⟨hs.known, hs.quiet⟩
  | clear => exact (he rfl).elim

theorem run_cons {event : Event} {events : List Event} :
    s.run (event :: events) = some s' ↔ ∃ next, s.step event = some next ∧ next.run events = some s' :=
  Option.bind_eq_some_iff

theorem Keeps.run {events : List Event} (hs : s.Keeps path tags) (he : .clear ∉ events)
    (h : s.run events = some s') : s'.Keeps path tags := by
  induction events generalizing s with
  | nil =>
    cases h
    exact hs
  | cons event events ih =>
    obtain ⟨next, hstep, hrun⟩ := run_cons.mp h
    have hne : event ≠ .clear := fun hc => he (hc ▸ List.mem_cons_self)
    exact ih (hs.step hne hstep) (fun hm => he (List.mem_cons_of_mem _ hm)) hrun

theorem move_eq {j : Nat} {move : Move} {b c : Batch} (hj : s.batches[j]? = some b)
    (h : (({ b with known := s.known } : Batch).move move : StateM FileTree _).run s.files =
      (some c, s.files)) :
    s.move j move = some { s with known := c.known, batches := s.batches.set j c } := by
  rw [Sharing.move, hj]
  dsimp only
  rw [h]

/-- A request in progress that is not done can take its next step. -/
theorem exists_event {r q : Request} {k : KnownTags} (hr : s.InProgress r)
    (h : Request.Step s.files r s.known q k) :
    ∃ event s', event ≠ .clear ∧ s.step event = some s' ∧ s'.known = k ∧ s'.files = s.files ∧
      s'.InProgress q := by
  rcases hr with hr | ⟨b, hb, hr⟩
  · obtain ⟨i, hi⟩ := List.mem_iff_getElem?.mp hr
    obtain ⟨hstep, hfiles⟩ := Request.step_outcome s.files h.not_done s.known
    obtain ⟨hq, hk⟩ := hstep.unique h
    refine ⟨.proceed i, _, nofun, proceed_eq hi, hk, hfiles, .inl ?_⟩
    rw [hq]
    exact List.mem_set (List.getElem?_eq_some_iff.mp hi).1 q
  · obtain ⟨j, hj⟩ := List.mem_iff_getElem?.mp hb
    obtain ⟨i, hi⟩ := List.mem_iff_getElem?.mp hr
    obtain ⟨move, hmove⟩ := Batch.move_of_step (b := { b with known := s.known }) (.request hi h)
    have htask := List.mem_set (List.getElem?_eq_some_iff.mp hi).1 (.running q)
    exact ⟨.move j move, _, nofun, move_eq hj hmove, rfl, rfl,
      .inr ⟨_, List.mem_set (List.getElem?_eq_some_iff.mp hj).1 _, htask⟩⟩

theorem exists_run_record {p : String} {other : List Tag} (hr : s.InProgress (.record p other))
    (hkey : pathKey p = pathKey path) :
    ∃ events s', .clear ∉ events ∧ s.run events = some s' ∧ s'.known.find? path = some other := by
  obtain ⟨event, s', hne, hstep, hknown, -⟩ := exists_event hr (.record s.known p other)
  refine ⟨[event], s', ?_, run_cons.mpr ⟨s', hstep, rfl⟩, ?_⟩
  · exact fun hm => hne (List.mem_singleton.mp hm).symm
  · rw [hknown, find?_insert, if_pos hkey.symm]

theorem exists_run_read {p : String} (hr : s.InProgress (.read p)) (hkey : pathKey p = pathKey path)
    (files : FileTree) :
    ∃ events s', .clear ∉ events ∧ s.run events = some s' ∧
      s'.known.find? path = some (tagsOfRead (files.read p)) := by
  have hchange : s.step (.change files) = some { s with files := files } := rfl
  have hr' : InProgress { s with files := files } (.read p) := hr
  obtain ⟨event, next, hne, hstep, -, -, hrecord⟩ := exists_event hr' (.read s.known p)
  obtain ⟨events, s', hclear, hrun, hfound⟩ := exists_run_record hrecord hkey
  refine ⟨.change files :: event :: events, s', ?_, ?_, hfound⟩
  · simp [hne.symm, hclear]
  · exact run_cons.mpr ⟨_, hchange, run_cons.mpr ⟨next, hstep, hrun⟩⟩

/-- What is known of a path stays in all runs exactly if no request that has looked the path up in vain
is still to record other tags, be they read already or only after the files have changed. -/
theorem stays_known_iff (s : Sharing) {path : String} {tags : List Tag}
    (hk : s.known.find? path = some tags) :
    (∀ events s', .clear ∉ events → s.run events = some s' → s'.known.find? path = some tags) ↔
      ∀ r, s.InProgress r → ¬ r.Threatens path tags := by
  constructor
  · intro hall r hr ht
    cases r with
    | lookUp p => exact ht
    | read p =>
      obtain ⟨hkey, files, hne⟩ := ht
      obtain ⟨events, s', hclear, hrun, hfound⟩ := exists_run_read hr hkey files
      exact hne (Option.some.inj (hfound.symm.trans (hall events s' hclear hrun)))
    | record p other =>
      obtain ⟨hkey, hne⟩ := ht
      obtain ⟨events, s', hclear, hrun, hfound⟩ := exists_run_record hr hkey
      exact hne (Option.some.inj (hfound.symm.trans (hall events s' hclear hrun)))
    | done result => exact ht
  · intro hquiet events s' hclear hrun
    exact (Keeps.run ⟨hk, hquiet⟩ hclear hrun).known

theorem stays_known_late_requests :
    let s : Sharing := ⟨⟨[([['a']], ["@A"])]⟩, {}, [.lookUp "a", .read "b", .record "a" ["@A"]],
      [⟨{}, 1, [], [.waiting "a"], [[]]⟩]⟩
    ∀ events s', .clear ∉ events → s.run events = some s' → s'.known.find? "a" = some ["@A"] := by
  intro s
  refine (stays_known_iff s (by decide)).mpr fun r hr ht => ?_
  simp only [InProgress, s, List.mem_cons, List.not_mem_nil, or_false] at hr
  rcases hr with (rfl | rfl | rfl) | ⟨b, rfl, hr⟩
  · exact ht
  · exact absurd ht.1 (by decide)
  · exact ht.2 rfl
  · simp at hr

/-- Two requests for one file that changes in between. Both look it up in vain, and the one that read
it before the change is the last to record. -/
theorem known_tags_replaced :
    ¬ ∀ (files : FileTree) (before after : List Event) (s s' : Sharing) (path : String)
        (tags : List Tag), (start files).run before = some s → s.known.find? path = some tags →
          .clear ∉ after → s.run after = some s' → s'.known.find? path = some tags := by
  intro h
  let old : FileTree := ⟨[(["a.feature"], .file (some "@A\nFeature: a\n"))]⟩
  let new : FileTree := ⟨[(["a.feature"], .file (some "@B\nFeature: a\n"))]⟩
  have hfound := h old [.ask "a.feature", .ask "a.feature", .proceed 0, .proceed 1, .proceed 0,
    .change new, .proceed 1, .proceed 1] [.proceed 0]
    ⟨⟨[(["a.feature".toList], ["@B"])]⟩, new, [.record "a.feature" ["@A"], .done ["@B"]], []⟩
    ⟨⟨[(["a.feature".toList], ["@A"])]⟩, new, [.done ["@A"], .done ["@B"]], []⟩
    "a.feature" ["@B"] (by decide +kernel) (by decide) (by simp) (by decide)
  exact absurd hfound (by decide)

end Sharing

end SuitePlan
