import SuitePlan.Proofs.Selection.Suite

/-! Selection by the meaning of tags. What counts of a list of tags is which leaves of the expression
it has, so two lists that agree on the leaves are selected alike. -/

namespace SuitePlan

open KnownTags

namespace Tag

theorem same_iff {a b : Tag} : Tag.same a b = true ↔ a = b ∨ lowercase a = lowercase b := by
  rw [Tag.same, beq_iff_eq]
  constructor
  · exact Or.inr
  · intro h
    exact h.elim (congrArg lowercase) id

theorem same_congr_left {a b : Tag} (h : Tag.same a b = true) (c : Tag) :
    Tag.same a c = Tag.same b c := by
  have hlower : lowercase a = lowercase b := eq_of_beq h
  rw [Tag.same, Tag.same, hlower]

theorem same_congr_right {a b : Tag} (h : Tag.same a b = true) (c : Tag) :
    Tag.same c a = Tag.same c b := by
  have hlower : lowercase a = lowercase b := eq_of_beq h
  rw [Tag.same, Tag.same, hlower]

end Tag

/-- Of these values the two lists have the same ones as tags. -/
def AgreeOn (values : List String) (tags more : List Tag) : Prop :=
  ∀ v ∈ values, tags.any (Tag.same · v) = more.any (Tag.same · v)

namespace AgreeOn

variable {values : List String} {tags more most : List Tag}

theorem refl (values : List String) (tags : List Tag) : AgreeOn values tags tags := fun _ _ => rfl

theorem symm (h : AgreeOn values tags more) : AgreeOn values more tags := fun v hv => (h v hv).symm

theorem trans (h : AgreeOn values tags more) (h' : AgreeOn values more most) :
    AgreeOn values tags most := fun v hv => (h v hv).trans (h' v hv)

theorem subset {fewer : List String} (h : AgreeOn values tags more) (hs : fewer ⊆ values) :
    AgreeOn fewer tags more := fun v hv => h v (hs hv)

end AgreeOn

/-- A change to a list of tags that is none of its meaning for these values: tags change places, one is
repeated, one is replaced by the same tag in other letters, or one is added that is none of the values. -/
inductive Retagged (values : List String) : List Tag → List Tag → Prop
  | reordered {tags more : List Tag} (h : tags.Perm more) : Retagged values tags more
  | repeated {t : Tag} {tags : List Tag} (h : t ∈ tags) : Retagged values tags (t :: tags)
  | renamed {t u : Tag} (before after : List Tag) (h : Tag.same t u = true) :
      Retagged values (before ++ t :: after) (before ++ u :: after)
  | added {t : Tag} (tags : List Tag) (h : ∀ v ∈ values, Tag.same t v = false) :
      Retagged values tags (t :: tags)

theorem Retagged.agreeOn {values : List String} {tags more : List Tag}
    (h : Retagged values tags more) : AgreeOn values tags more := by
  intro v hv
  cases h with
  | reordered h => exact h.any_eq
  | @repeated t _ h =>
    rw [List.any_cons]
    cases ht : Tag.same t v with
    | true => exact List.any_eq_true.mpr ⟨t, h, ht⟩
    | false => exact (Bool.false_or _).symm
  | renamed before after h =>
    rw [List.any_append, List.any_append, List.any_cons, List.any_cons, Tag.same_congr_left h]
  | added _ h => rw [List.any_cons, h v hv, Bool.false_or]

theorem agreeOn_of_retagged {values : List String} {tags more : List Tag}
    (h : Relation.EqvGen (Retagged values) tags more) : AgreeOn values tags more := by
  induction h with
  | rel _ _ h => exact h.agreeOn
  | refl tags => exact .refl values tags
  | symm _ _ _ ih => exact ih.symm
  | trans _ _ _ _ _ ih ih' => exact ih.trans ih'

namespace TagExpr

theorem eval_congr {e : TagExpr} {tags more : List Tag} (h : AgreeOn e.leaves tags more) :
    e.eval tags = e.eval more := by
  induction e with
  | tag v => exact h v (List.mem_singleton_self v)
  | and l r ihl ihr =>
    have hl := ihl (h.subset (List.subset_append_left _ _))
    have hr := ihr (h.subset (List.subset_append_right _ _))
    rw [eval, eval, hl, hr]
  | or l r ihl ihr =>
    have hl := ihl (h.subset (List.subset_append_left _ _))
    have hr := ihr (h.subset (List.subset_append_right _ _))
    rw [eval, eval, hl, hr]
  | not e ih => rw [eval, eval, ih h]
  | unknown => rfl

/-- Two trees of one shape whose leaves are the same tags. -/
inductive Renamed : TagExpr → TagExpr → Prop
  | tag {v w : String} (h : Tag.same v w = true) : Renamed (tag v) (tag w)
  | and {l r l' r' : TagExpr} (hl : Renamed l l') (hr : Renamed r r') :
      Renamed (and l r) (and l' r')
  | or {l r l' r' : TagExpr} (hl : Renamed l l') (hr : Renamed r r') :
      Renamed (or l r) (or l' r')
  | not {e e' : TagExpr} (h : Renamed e e') : Renamed (not e) (not e')
  | unknown : Renamed unknown unknown

theorem Renamed.eval_eq {e f : TagExpr} (h : Renamed e f) (tags : List Tag) :
    e.eval tags = f.eval tags := by
  induction h with
  | tag h =>
    have hsame : ∀ t : Tag, _ := Tag.same_congr_right h
    rw [eval, eval, funext hsame]
  | and _ _ ihl ihr => rw [eval, eval, ihl, ihr]
  | or _ _ ihl ihr => rw [eval, eval, ihl, ihr]
  | not _ ih => rw [eval, eval, ih]
  | unknown => rfl

end TagExpr

/-- The values of the leaves of the expression in a text. A text without an expression has none. -/
def Grammar.leavesOf (g : Grammar) (s : String) : List String :=
  match g.parse s with
  | .ok (some e) => e.leaves
  | _ => []

section

variable {g : Grammar} {s : String}

theorem holds_congr {r : Option TagExpr} (hr : g.parse s = .ok r) {tags more : List Tag}
    (h : AgreeOn (g.leavesOf s) tags more) : holds r tags = holds r more := by
  cases r with
  | none => rfl
  | some e =>
    rw [Grammar.leavesOf, hr] at h
    exact TagExpr.eval_congr h

theorem satisfies_congr {tags more : List Tag} (h : AgreeOn (g.leavesOf s) tags more) :
    satisfies g s tags = satisfies g s more := by
  rw [satisfies, satisfies]
  cases hp : g.parse s with
  | error err => rfl
  | ok r => rw [Except.map, Except.map, holds_congr hp h]

theorem selects_congr {tags more : List Tag} (h : AgreeOn (g.leavesOf s) tags more) :
    selects g s tags = selects g s more := by
  rw [selects, selects, satisfies_congr h]

variable {paths : List String} {k k' : KnownTags} {t t' : FileTree}

theorem selectFiles_congr
    (h : ∀ p ∈ paths, AgreeOn (g.leavesOf s) (tagsAmong t k paths p) (tagsAmong t' k' paths p)) :
    (outcome (selectFiles g s paths) k t).1.1 = (outcome (selectFiles g s paths) k' t').1.1 := by
  by_cases hr : ∃ err, Refused g s err
  · obtain ⟨err, hr⟩ := hr
    by_cases hnil : paths = []
    · have hnone : ∀ k t, (outcome (selectFiles g s []) k t).1.1 = .ok [] := by
        intro k t
        rw [selectFiles, selectFilesWith, hr.1]
        rfl
      rw [hnil, hnone, hnone]
    · rw [outcome_selectFiles_of_refused k t hr hnil, outcome_selectFiles_of_refused k' t' hr hnil]
  · have hr : ∀ err, ¬ Refused g s err := fun err he => hr ⟨err, he⟩
    rw [outcome_selectFiles_of_not_refused k t hr, outcome_selectFiles_of_not_refused k' t' hr]
    exact congrArg Except.ok (List.filter_congr fun p hp => selects_congr (h p hp))

theorem selectSuite_congr
    (h : ∀ p ∈ paths.filter namesFeature, AgreeOn (g.leavesOf s)
      (tagsAmong t k (paths.filter namesFeature) p) (tagsAmong t' k' (paths.filter namesFeature) p)) :
    (outcome (selectSuite g s paths) k t).1.1 = (outcome (selectSuite g s paths) k' t').1.1 := by
  have hfiles := selectFiles_congr h
  rw [selectSuite_eq]
  by_cases hnone : (paths.filter namesFeature).isEmpty
  · rw [if_pos hnone]
    rfl
  · rw [if_neg hnone, outcome_bind, outcome_bind, outcome_pure, outcome_pure, hfiles]

end

/-- Lists of tags that agree on the leaves of an expression get the same answer, be it a refusal, and
files with such tags are selected alike. Reordering tags, repeating them, writing them in other letters
and adding tags that are no leaf keep this agreement, and other letters in the leaves change nothing. -/
theorem selection_congr (g : Grammar) (s : String) :
    (∀ tags more, AgreeOn (g.leavesOf s) tags more → satisfies g s tags = satisfies g s more) ∧
    (∀ tags more, Relation.EqvGen (Retagged (g.leavesOf s)) tags more →
      AgreeOn (g.leavesOf s) tags more) ∧
    (∀ paths k k' t t',
      (∀ p ∈ paths, AgreeOn (g.leavesOf s) (tagsAmong t k paths p) (tagsAmong t' k' paths p)) →
      (outcome (selectFiles g s paths) k t).1.1 = (outcome (selectFiles g s paths) k' t').1.1) ∧
    (∀ paths k k' t t',
      let features := paths.filter namesFeature
      (∀ p ∈ features,
        AgreeOn (g.leavesOf s) (tagsAmong t k features p) (tagsAmong t' k' features p)) →
      (outcome (selectSuite g s paths) k t).1.1 = (outcome (selectSuite g s paths) k' t').1.1) ∧
    ∀ e f : TagExpr, e.Renamed f → ∀ tags, holds (some e) tags = holds (some f) tags := by
  refine ⟨fun tags more => satisfies_congr, fun tags more => agreeOn_of_retagged, ?_, ?_, ?_⟩
  · intro paths k k' t t' h
    exact selectFiles_congr h
  · intro paths k k' t t' features h
    exact selectSuite_congr h
  · intro e f h tags
    exact h.eval_eq tags

theorem selection_congr_retagged :
    let s := "@A and not @B"
    let t : FileTree := ⟨[(["a.feature"], .file (some "@A @C\nFeature: a\n"))]⟩
    let t' : FileTree := ⟨[(["a.feature"], .file (some "@X @a @C\n@a\nFeature: a\n"))]⟩
    Relation.EqvGen (Retagged (Grammar.precedence.leavesOf s)) ["@A", "@C"] ["@X", "@a", "@C", "@a"] ∧
      satisfies .precedence s ["@A", "@C"] = satisfies .precedence s ["@X", "@a", "@C", "@a"] ∧
      (outcome (selectFiles .precedence s ["a.feature"]) {} t).1.1 =
        (outcome (selectFiles .precedence s ["a.feature"]) {} t').1.1 ∧
      (outcome (selectSuite .precedence s ["x.js", "a.feature"]) {} t).1.1 =
        (outcome (selectSuite .precedence s ["x.js", "a.feature"]) {} t').1.1 ∧
      holds (some (.or (.tag "@A") (.not .unknown))) ["@B"] =
        holds (some (.or (.tag "@a") (.not .unknown))) ["@B"] := by
  intro s t t'
  have hparse : Grammar.precedence.parse s = .ok (some (.and (.tag "@A") (.not (.tag "@B")))) := by
    decide +kernel
  have hleaves : Grammar.precedence.leavesOf s = ["@A", "@B"] := by rw [Grammar.leavesOf, hparse]; rfl
  have hcase : Tag.same "@A" "@a" = true := Tag.same_iff.mpr (.inr (by decide +kernel))
  obtain ⟨hanswer, hagree, hfiles, hsuite, htree⟩ := selection_congr .precedence s
  have htags : Relation.EqvGen (Retagged (Grammar.precedence.leavesOf s))
      ["@A", "@C"] ["@X", "@a", "@C", "@a"] := by
    rw [hleaves]
    have hcased : Retagged ["@A", "@B"] ["@A", "@C"] ["@a", "@C"] := .renamed [] ["@C"] hcase
    have hagain : Retagged ["@A", "@B"] ["@a", "@C"] ["@a", "@a", "@C"] := .repeated (by simp)
    have hmoved : Retagged ["@A", "@B"] ["@a", "@a", "@C"] ["@a", "@C", "@a"] :=
      .reordered (.cons _ (.swap _ _ _))
    have hmore : Retagged ["@A", "@B"] ["@a", "@C", "@a"] ["@X", "@a", "@C", "@a"] :=
      .added _ (by decide +kernel)
    exact .trans _ _ _ (.rel _ _ hcased) (.trans _ _ _ (.rel _ _ hagain)
      (.trans _ _ _ (.rel _ _ hmoved) (.rel _ _ hmore)))
  have hread : tagsAmong t {} ["a.feature"] "a.feature" = ["@A", "@C"] := by decide +kernel
  have hread' : tagsAmong t' {} ["a.feature"] "a.feature" = ["@X", "@a", "@C", "@a"] := by decide +kernel
  have hall : ∀ p ∈ ["a.feature"], AgreeOn (Grammar.precedence.leavesOf s)
      (tagsAmong t {} ["a.feature"] p) (tagsAmong t' {} ["a.feature"] p) := by
    intro p hp
    rw [List.mem_singleton.mp hp, hread, hread']
    exact hagree _ _ htags
  have hfeatures : ["x.js", "a.feature"].filter namesFeature = ["a.feature"] := by decide
  refine ⟨htags, hanswer _ _ (hagree _ _ htags), hfiles _ _ _ _ _ hall, hsuite _ _ _ _ _ ?_, ?_⟩
  · rw [hfeatures]
    exact hall
  · exact htree _ _ (.or (.tag hcase) (.not .unknown)) _

end SuitePlan
