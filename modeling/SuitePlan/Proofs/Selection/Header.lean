import SuitePlan.Proofs.Gherkin.Margin
import SuitePlan.Proofs.TagExpr.Rendering
import SuitePlan.Selection.Header

/-! The tags that are read line by line above the feature line, and those that the grammar finds
there. Both readers see the same lines, but one takes words and the other cuts at every at sign and
knows comments. -/

namespace SuitePlan

open Gherkin (Passes Starts isPad isTagChar not_isBlank_of_isTagChar newlines afterNewline?)

/-- On a tag line each word that begins with an at sign has no other, and all such words stand
before the rest. -/
def PlainTags (l : List Char) : Prop :=
  (trim l).head? = some '@' →
    (∀ w ∈ words l, w.head? = some '@' → '@' ∉ w.tail) ∧
      ∀ w ∈ (words l).dropWhile (·.head? = some '@'), w.head? ≠ some '@'

instance (l : List Char) : Decidable (PlainTags l) := inferInstanceAs (Decidable (_ → _ ∧ _))

/-- The lines of a text up to the one of this number. -/
def linesUpTo (content : String) (line : Nat) : List (List Char) :=
  (lines (dropByteOrderMark content.toList)).take line

/-- The lines below the one of this number that are taken for a part of the header. There are none
below a feature line. -/
def headerBelow (content : String) (line : Nat) : List (List Char) :=
  (((lines (dropByteOrderMark content.toList)).drop (line - 1)).takeWhile (!isFeatureLine ·)).tail

/-- The line `l` has the tags `ts`, with blanks between them at most, before its end `e`. -/
inductive Spread (e : List Char) : List Char → List Tag → Prop
  | here : Spread e e []
  | pad {c : Char} {l : List Char} {ts : List Tag} (hc : isPad c) (h : Spread e l ts) :
      Spread e (c :: l) ts
  | tag {w l : List Char} {ts : List Tag} (hne : w ≠ []) (hw : ∀ c ∈ w, isTagChar c)
      (hl : ∀ c ∈ l.head?, isTagChar c = false) (h : Spread e l ts) :
      Spread e ('@' :: (w ++ l)) (String.ofList ('@' :: w) :: ts)

/-- A line with the tags `ts` before an end that satisfies `E`. -/
def OnLine (E : List Char → Prop) (l : List Char) (ts : List Tag) : Prop := ∃ e, E e ∧ Spread e l ts

/-- Nothing, or a comment. -/
def IsRemark (e : List Char) : Prop := ∀ c ∈ e.head?, c = '#'

/-- Nothing, or a text that begins with a visible character other than an at sign. -/
def NoTag (e : List Char) : Prop := ∀ c ∈ e.head?, isBlank c = false ∧ c ≠ '@'

theorem IsRemark.noTag {e : List Char} (h : IsRemark e) : NoTag e := by
  intro c hc
  rw [h c hc]
  decide

theorem Gherkin.Starts.noTag {e : List Char} (h : Starts e) : NoTag e := by
  obtain ⟨c, u, rfl, hc⟩ := h
  simpa [NoTag] using hc

/-- The text `s` up to the rest `r` is laid out in lines: some that hold tags and comments only, and
the one on which `r` begins. -/
def Rows (r s : List Char) (ts : List Tag) : Prop :=
  ∃ (ms : List (List Char × List Tag)) (l : List Char) (us : List Tag),
    lines s = ms.map Prod.fst ++ l :: (lines r).tail ∧ ts = ms.flatMap Prod.snd ++ us ∧
      (∀ m ∈ ms, OnLine IsRemark m.1 m.2) ∧ OnLine Starts l us ∧
      newlines s = ms.length + newlines r

namespace Rows

variable {r s : List Char} {ts : List Tag}

theorem here (h : Starts r) : Rows r r [] := by
  obtain ⟨c, u, rfl, hb, ha⟩ := h
  have hr' : Starts (c :: (lines u).headD []) := ⟨c, _, rfl, hb, ha⟩
  have hn := not_newline_of_not_blank hb
  have hlines := lines_cons (afterNewline?_of_visible hn.1 hn.2 u)
  refine ⟨[], _, [], ?_, rfl, by simp, ⟨_, hr', .here⟩, by simp⟩
  rw [hlines]
  rfl

theorem prepend (h : Rows r s ts) {w : List Char} {gs : List Tag}
    (hw : ∀ c ∈ w, c ≠ '\n' ∧ c ≠ '\r')
    (hline : ∀ E l us, (∀ c ∈ l.head?, c ∈ s.head?) → OnLine E l us →
      OnLine E (w ++ l) (gs ++ us)) :
    Rows r (w ++ s) (gs ++ ts) := by
  obtain ⟨ms, l, us, hlines, rfl, hms, hl, hcount⟩ := h
  cases ms with
  | nil =>
    refine ⟨[], w ++ l, gs ++ us, lines_append hw hlines, by simp, by simp, ?_, ?_⟩
    · exact hline _ l us (head?_of_lines hlines) hl
    · rw [newlines_append hw, hcount]
  | cons m ms =>
    refine ⟨(w ++ m.1, gs ++ m.2) :: ms, l, us, lines_append hw hlines, by simp, ?_, hl, ?_⟩
    · intro m' hm'
      rcases List.mem_cons.mp hm' with rfl | hm'
      · exact hline _ m.1 m.2 (head?_of_lines hlines) (hms m List.mem_cons_self)
      · exact hms m' (List.mem_cons_of_mem m hm')
    · rw [newlines_append hw, hcount]
      rfl

/-- A line without tags above the others. -/
theorem above (h : Rows r s ts) {l u : List Char} (hlines : lines u = l :: lines s)
    (hl : OnLine IsRemark l []) (hcount : newlines u = newlines s + 1) : Rows r u ts := by
  obtain ⟨ms, l', us, hs, rfl, hms, hl', hn⟩ := h
  refine ⟨(l, []) :: ms, l', us, by rw [hlines, hs]; rfl, by simp, ?_, hl', ?_⟩
  · intro m hm
    rcases List.mem_cons.mp hm with rfl | hm
    · exact hl
    · exact hms m hm
  · rw [hcount, hn, List.length_cons]
    omega

end Rows

theorem not_newline_of_isPad {c : Char} (h : isPad c) : c ≠ '\n' ∧ c ≠ '\r' := by
  constructor
  · rintro rfl
    cases h
  · rintro rfl
    cases h

theorem Gherkin.Passes.rows {r s : List Char} {ts : List Tag} (h : Passes r s ts) (hr : Starts r) :
    Rows r s ts := by
  induction h with
  | here => exact .here hr
  | @pad c s us hc _ ih =>
    have hw : ∀ d ∈ [c], d ≠ '\n' ∧ d ≠ '\r' := by
      intro d hd
      rw [List.mem_singleton.mp hd]
      exact not_newline_of_isPad hc
    have hrows : Rows r ([c] ++ s) ([] ++ us) := by
      refine ih.prepend hw fun E l _ _ => ?_
      rintro ⟨e, he, h⟩
      exact ⟨e, he, .pad hc h⟩
    exact hrows
  | lineEnd hs _ ih =>
    refine ih.above (lines_of_newline hs) ⟨[], by simp [IsRemark], .here⟩ ?_
    rcases afterNewline?_eq_some hs with rfl | rfl <;> simp [newlines]
  | @comment x s _ hx _ ih =>
    obtain ⟨y, hy⟩ := lines_append_newline hx s
    have hhash : afterNewline? ('#' :: (x ++ '\n' :: s)) = none :=
      afterNewline?_of_visible (by decide) (by decide) _
    refine ih.above (l := '#' :: y) ?_ ⟨'#' :: y, by simp [IsRemark], .here⟩ ?_
    · rw [lines_cons hhash, hy]
      rfl
    · simp [newlines, List.count_eq_zero.mpr hx]
  | @tag w s us hne hw hs _ ih =>
    have hplain : ∀ c ∈ '@' :: w, c ≠ '\n' ∧ c ≠ '\r' := by
      intro c hc
      rcases List.mem_cons.mp hc with rfl | hc
      · decide
      · exact not_newline_of_not_blank (not_isBlank_of_isTagChar (hw c hc))
    have hrows : Rows r ('@' :: w ++ s) ([String.ofList ('@' :: w)] ++ us) := by
      refine ih.prepend hplain fun E l _ hl => ?_
      rintro ⟨e, he, h⟩
      exact ⟨e, he, .tag hne hw (fun c hc => hs c (hl c hc)) h⟩
    exact hrows

theorem isBlank_of_isPad {c : Char} (h : isPad c) : isBlank c := by
  simp only [isPad, Bool.or_eq_true, decide_eq_true_eq] at h
  rcases h with rfl | rfl
  · rfl
  · rfl

theorem isTagChar_eq_false {c : Char} (h : isTagChar c = false) : isBlank c ∨ c = '@' := by
  simpa [isTagChar, or_iff_not_imp_left] using h

namespace Spread

variable {e l : List Char} {ts : List Tag}

theorem head?_trim (h : Spread e l ts) (he : NoTag e) :
    (trim l).head? = if ts = [] then e.head? else some '@' := by
  rw [SuitePlan.head?_trim]
  induction h with
  | here =>
    cases e with
    | nil => rfl
    | cons c e => simp [(he c rfl).1]
  | pad hc _ ih => rw [List.dropWhile_cons_of_pos (isBlank_of_isPad hc), ih]
  | tag =>
    rw [List.dropWhile_cons_of_neg (by decide)]
    simp

/-- Tags that are not glued together are the first words of their line. -/
theorem words_eq (h : Spread e l ts)
    (hglue : ∀ w ∈ words l, w.head? = some '@' → '@' ∉ w.tail) :
    words l = ts.map String.toList ++ words e := by
  induction h with
  | here => rfl
  | @pad c l _ hc _ ih =>
    rw [words_cons, if_pos (isBlank_of_isPad hc)] at hglue ⊢
    exact ih hglue
  | @tag w l ts _ hw hl _ ih =>
    have hblank : ∀ c ∈ w, isBlank c = false := fun c hc => not_isBlank_of_isTagChar (hw c hc)
    by_cases hat : l.head? = some '@'
    · -- the word that begins here has two at signs
      obtain ⟨u, rfl⟩ := List.head?_eq_some_iff.mp hat
      have hfirst := words_cons '@' (w ++ '@' :: u)
      rw [if_neg (by decide), List.takeWhile_append_of_pos (by simpa using hblank),
        List.takeWhile_cons_of_pos (by decide)] at hfirst
      rw [hfirst] at hglue
      exact (hglue _ List.mem_cons_self rfl (by simp)).elim
    · have hend : ∀ c ∈ l.head?, isBlank c := by
        intro c hc
        rcases isTagChar_eq_false (hl c hc) with hb | rfl
        · exact hb
        · exact (hat hc).elim
      have hword : ∀ c ∈ '@' :: w, isBlank c = false := by
        intro c hc
        rcases List.mem_cons.mp hc with rfl | hc
        · decide
        · exact hblank c hc
      have hwords := words_word (List.cons_ne_nil '@' w) hword hend
      rw [← List.cons_append, hwords] at hglue ⊢
      rw [ih fun v hv => hglue v (List.mem_cons_of_mem _ hv), List.map_cons, String.toList_ofList,
        List.cons_append]

theorem passes (h : Spread e l ts) : Passes e l ts := by
  induction h with
  | here => exact .here
  | pad hc _ ih => exact .pad hc ih
  | tag hne hw hl _ ih => exact .tag hne hw hl ih

end Spread

theorem NoTag.head?_words {e : List Char} (h : NoTag e) :
    ∀ w ∈ (words e).head?, w.head? ≠ some '@' := by
  cases e with
  | nil => simp [words_nil]
  | cons c e =>
    obtain ⟨hb, ha⟩ := h c rfl
    rw [words_cons, if_neg (by simp [hb])]
    simpa using ha

theorem lineTags_eq {l : List Char} (h : (trim l).head? = some '@') :
    lineTags l = ((words l).filter (·.head? = some '@')).map String.ofList := by
  simp only [lineTags, h, if_true, words_trim]

/-- Where no tags are glued together, the words of a line are its tags and then those that begin
with an at sign behind them. -/
theorem OnLine.lineTags_eq {E : List Char → Prop} {l : List Char} {ts : List Tag}
    (h : OnLine E l ts) (hE : ∀ e, E e → NoTag e)
    (hglue : ∀ t ∈ lineTags l, '@' ∉ t.toList.tail) :
    ∃ marks, lineTags l = ts ++ marks ∧ (PlainTags l ↔ marks = []) := by
  obtain ⟨e, he, hs⟩ := h
  have he := hE e he
  have hhead := hs.head?_trim he
  by_cases hts : ts = []
  · have hno : (trim l).head? ≠ some '@' := by
      rw [hhead, if_pos hts]
      exact fun hc => (he '@' hc).2 rfl
    refine ⟨[], ?_, iff_of_true (fun hc => (hno hc).elim) rfl⟩
    simp only [lineTags, if_neg hno, hts, List.append_nil]
  · rw [if_neg hts] at hhead
    rw [SuitePlan.lineTags_eq hhead] at hglue ⊢
    have hplain : ∀ w ∈ words l, w.head? = some '@' → '@' ∉ w.tail := by
      intro w hw ha
      have hmem : String.ofList w ∈ ((words l).filter (·.head? = some '@')).map String.ofList :=
        List.mem_map_of_mem (List.mem_filter.mpr ⟨hw, by simpa using ha⟩)
      simpa using hglue _ hmem
    have hwords := hs.words_eq hplain
    have hfilter : (ts.map String.toList).filter (·.head? = some '@') = ts.map String.toList := by
      apply List.filter_eq_self.mpr
      intro w hw
      obtain ⟨t, ht, rfl⟩ := List.mem_map.mp hw
      obtain ⟨v, hv, -⟩ := hs.passes.tag_form t ht
      simp [hv]
    refine ⟨((words e).filter (·.head? = some '@')).map String.ofList, ?_, ?_⟩
    · rw [hwords, List.filter_append, hfilter, List.map_append, List.map_map]
      simp
    · have hdrop : (words l).dropWhile (·.head? = some '@') = words e := by
        rw [hwords, List.dropWhile_append_of_pos fun w hw => ?_]
        · cases hw : words e with
          | nil => rfl
          | cons w ws =>
            have hno := he.head?_words w (by simp [hw])
            rw [List.dropWhile_cons_of_neg (by simpa using hno)]
        · rw [← hfilter] at hw
          exact (List.mem_filter.mp hw).2
      rw [PlainTags, hdrop, List.map_eq_nil_iff, List.filter_eq_nil_iff]
      simp only [decide_eq_true_eq]
      exact ⟨fun h => (h hhead).2, fun h _ => ⟨hplain, h⟩⟩

/-- Readings of the lines one by one agree with the tags that stand there exactly when all lines are
plain. -/
theorem flatMap_lineTags_eq_iff {rows : List (List Char × List Tag)}
    (h : ∀ m ∈ rows, ∃ marks, lineTags m.1 = m.2 ++ marks ∧ (PlainTags m.1 ↔ marks = [])) :
    (rows.map Prod.fst).flatMap lineTags = rows.flatMap Prod.snd ↔ ∀ m ∈ rows, PlainTags m.1 := by
  -- lines have tags too many but never too few, so the lengths leave no room for marks
  have hle : ∀ rows : List (List Char × List Tag),
      (∀ m ∈ rows, ∃ marks, lineTags m.1 = m.2 ++ marks) →
      (rows.flatMap Prod.snd).length ≤ ((rows.map Prod.fst).flatMap lineTags).length := by
    intro rows hrows
    induction rows with
    | nil => simp
    | cons m rows ih =>
      have hrest := ih fun m' hm' => hrows m' (List.mem_cons_of_mem m hm')
      obtain ⟨marks, hm⟩ := hrows m List.mem_cons_self
      simp only [List.map_cons, List.flatMap_cons, hm, List.length_append]
      omega
  induction rows with
  | nil => simp
  | cons m rows ih =>
    have hrows : ∀ m' ∈ rows, ∃ marks,
        lineTags m'.1 = m'.2 ++ marks ∧ (PlainTags m'.1 ↔ marks = []) :=
      fun m' hm' => h m' (List.mem_cons_of_mem m hm')
    obtain ⟨marks, hm, hplain⟩ := h m List.mem_cons_self
    have hih := ih hrows
    rw [List.forall_mem_cons, hplain, List.map_cons, List.flatMap_cons, List.flatMap_cons, hm,
      List.append_assoc, List.append_cancel_left_eq]
    constructor
    · intro heq
      have hlen := congrArg List.length heq
      have hrest := hle rows fun m' hm' => (hrows m' hm').imp fun _ hh => hh.1
      rw [List.length_append] at hlen
      have hnil : marks = [] := List.length_eq_zero_iff.mp (by omega)
      rw [hnil] at heq
      exact ⟨hnil, hih.mp heq⟩
    · rintro ⟨rfl, hrest⟩
      exact hih.mpr hrest

theorem head?_of_isFeatureLine {l : List Char} (h : isFeatureLine l) :
    (trim l).head? = some 'F' := by
  obtain ⟨t, ht⟩ := List.isPrefixOf_iff_prefix.mp h
  rw [← ht]
  rfl

theorem lineTags_eq_nil {l : List Char} (h : (trim l).head? ≠ some '@') : lineTags l = [] := by
  simp only [lineTags, if_neg h]

theorem OnLine.not_isFeatureLine {l : List Char} {ts : List Tag} (h : OnLine IsRemark l ts) :
    isFeatureLine l = false := by
  obtain ⟨e, he, hs⟩ := h
  apply Bool.eq_false_iff.mpr
  intro hf
  have hhead := hs.head?_trim he.noTag
  rw [head?_of_isFeatureLine hf] at hhead
  split at hhead
  · have hc := he 'F' hhead.symm
    cases hc
  · cases hhead

theorem PlainTags.tag_form {l : List Char} (h : PlainTags l) :
    ∀ t ∈ lineTags l, '@' ∉ t.toList.tail := by
  by_cases hhead : (trim l).head? = some '@'
  · intro t ht
    rw [lineTags_eq hhead] at ht
    obtain ⟨w, hw, rfl⟩ := List.mem_map.mp ht
    obtain ⟨hmem, ha⟩ := List.mem_filter.mp hw
    rw [String.toList_ofList]
    exact (h hhead).1 w hmem (by simpa using ha)
  · simp [lineTags_eq_nil hhead]

/-- A text with a feature is laid out in lines up to its heading, each with tags of the feature. -/
theorem exists_layout {dialects : String → Option Gherkin.Dialect} {content : String}
    {f : Gherkin.Feature} (h : Gherkin.parseIn? dialects content = some (some f)) :
    ∃ (ms : List (List Char × List Tag)) (l : List Char) (us : List Tag) (below : List (List Char)),
      lines (dropByteOrderMark content.toList) = ms.map Prod.fst ++ l :: below ∧
        f.heading.line = ms.length + 1 ∧ f.heading.tags = (ms ++ [(l, us)]).flatMap Prod.snd ∧
        (∀ m ∈ ms, OnLine IsRemark m.1 m.2) ∧ OnLine Starts l us := by
  obtain ⟨r, hpass, hr, hline⟩ := Gherkin.passes_of_parse h
  obtain ⟨ms, l, us, hlines, htags, hms, hl, hcount⟩ := hpass.rows hr
  exact ⟨ms, l, us, _, hlines, by omega, by simp [htags], hms, hl⟩

/-- The header ends behind its last tag line. -/
theorem header_lineTags {margin below : List (List Char)} {l : List Char}
    (hmargin : ∀ t ∈ margin, isFeatureLine t = false)
    (hbelow : ∀ t ∈ ((l :: below).takeWhile (!isFeatureLine ·)).tail, (trim t).head? ≠ some '@') :
    ((margin ++ l :: below).takeWhile (!isFeatureLine ·)).flatMap lineTags =
      (margin ++ [l]).flatMap lineTags := by
  have hheading : ((l :: below).takeWhile (!isFeatureLine ·)).flatMap lineTags = lineTags l := by
    by_cases hfeature : isFeatureLine l = true
    · have hno : (trim l).head? ≠ some '@' := by simp [head?_of_isFeatureLine hfeature]
      rw [List.takeWhile_cons_of_neg (by simp [hfeature]), lineTags_eq_nil hno, List.flatMap_nil]
    · rw [List.takeWhile_cons_of_pos (by simp [hfeature])] at hbelow ⊢
      rw [List.tail_cons] at hbelow
      have hnil := List.flatMap_eq_nil_iff.mpr fun t ht => lineTags_eq_nil (hbelow t ht)
      rw [List.flatMap_cons, hnil, List.append_nil]
  have hall : ∀ t ∈ margin, (!isFeatureLine t) = true := fun t ht => by rw [hmargin t ht]; rfl
  rw [List.takeWhile_append_of_pos hall, List.flatMap_append, hheading]
  simp

/-- Where no line below the heading is taken for a tag line of the header, the tags that are read
line by line are those of the feature if and only if all lines up to the heading are plain. Whatever
dialects there are makes no difference. -/
theorem declaredTags_eq_iff {dialects : String → Option Gherkin.Dialect} {content : String}
    {f : Gherkin.Feature} (h : Gherkin.parseIn? dialects content = some (some f))
    (hbelow : ∀ l ∈ headerBelow content f.heading.line, (trim l).head? ≠ some '@') :
    declaredTags content = f.heading.tags ↔
      ∀ l ∈ linesUpTo content f.heading.line, PlainTags l := by
  obtain ⟨ms, l, us, below, hlines, hnumber, htags, hms, hl⟩ := exists_layout h
  rw [headerBelow, hlines, hnumber, Nat.add_sub_cancel, List.drop_left' (by simp)] at hbelow
  have hmargin : ∀ t ∈ ms.map Prod.fst, isFeatureLine t = false :=
    List.forall_mem_map.mpr fun m hm => (hms m hm).not_isFeatureLine
  have hdeclared : declaredTags content = ((ms ++ [(l, us)]).map Prod.fst).flatMap lineTags := by
    rw [declaredTags, headerTags, hlines, header_lineTags hmargin hbelow, List.map_append]
    rfl
  have hupTo : linesUpTo content f.heading.line = (ms ++ [(l, us)]).map Prod.fst := by
    rw [linesUpTo, hlines, hnumber, List.append_cons, List.map_append]
    exact List.take_left' (by simp)
  have hrow : ∀ m ∈ ms ++ [(l, us)], ∃ E, (∀ e, E e → NoTag e) ∧ OnLine E m.1 m.2 := by
    intro m hm
    rcases List.mem_append.mp hm with hm | hm
    · exact ⟨IsRemark, fun _ => IsRemark.noTag, hms m hm⟩
    · rw [List.mem_singleton.mp hm]
      exact ⟨Starts, fun _ => Gherkin.Starts.noTag, hl⟩
  have hiff : (∀ m ∈ ms ++ [(l, us)], ∀ t ∈ lineTags m.1, '@' ∉ t.toList.tail) →
      (declaredTags content = f.heading.tags ↔ ∀ m ∈ ms ++ [(l, us)], PlainTags m.1) := by
    intro hglue
    rw [hdeclared, htags]
    apply flatMap_lineTags_eq_iff
    intro m hm
    obtain ⟨E, hE, hm'⟩ := hrow m hm
    exact hm'.lineTags_eq hE (hglue m hm)
  rw [hupTo, List.forall_mem_map]
  constructor
  · -- what is read is a list of tags of the feature, so no two tags are glued together
    intro heq
    refine (hiff fun m hm t ht => ?_).mp heq
    have hmem : t ∈ f.heading.tags := by
      rw [← heq, hdeclared]
      exact List.mem_flatMap.mpr ⟨m.1, List.mem_map_of_mem hm, ht⟩
    obtain ⟨r, hpass, -⟩ := Gherkin.passes_of_parse h
    obtain ⟨w, hw, hno⟩ := hpass.tag_form t hmem
    rwa [hw]
  · exact fun hplain => (hiff fun m hm => (hplain m hm).tag_form).mpr hplain

def dutch : Gherkin.Dialect where
  feature := ["Functionaliteit"]
  background := ["Achtergrond"]
  rule := ["Rule"]
  scenario := ["Voorbeeld", "Scenario"]
  outline := ["Abstract Scenario"]
  examples := ["Voorbeelden"]
  givenWords := ["* ", "Gegeven ", "Stel "]
  whenWords := ["* ", "Als ", "Wanneer "]
  thenWords := ["* ", "Dan "]
  andWords := ["* ", "En "]
  butWords := ["* ", "Maar "]

theorem declaredTags_eq_iff_with_remarks :
    let dialects := fun name => if name = "nl" then some dutch else Gherkin.Dialect.ofName? name
    let content := "# a\n@A @B\n\n@C # b\nFeature: F\n@D\nScenario: s\n"
    let inDutch := "# language: nl\n@A @B\n\n@C # b\nFunctionaliteit: F\nVoorbeeld: s\nStel x\n"
    ∀ s ∈ [content, inDutch], ∃ f, Gherkin.parseIn? dialects s = some (some f) ∧
      f.heading.tags = ["@A", "@B", "@C"] ∧
      (∀ l ∈ headerBelow s f.heading.line, (trim l).head? ≠ some '@') ∧
      (declaredTags s = f.heading.tags ↔ ∀ l ∈ linesUpTo s f.heading.line, PlainTags l) := by
  intro dialects content inDutch s hs
  have hs : s = content ∨ s = inDutch := by simpa using hs
  have hheading : (Gherkin.parseIn? dialects s).map (·.map (·.heading)) =
      some (some ⟨"F", ["@A", "@B", "@C"], 5⟩) := by
    rcases hs with rfl | rfl <;> decide +kernel
  obtain ⟨d, hd, hmap⟩ := Option.map_eq_some_iff.mp hheading
  obtain ⟨f, rfl, hf⟩ := Option.map_eq_some_iff.mp hmap
  have hbelow : ∀ l ∈ headerBelow s f.heading.line, (trim l).head? ≠ some '@' := by
    rw [hf]
    rcases hs with rfl | rfl <;> decide +kernel
  exact ⟨f, hd, by rw [hf], hbelow, declaredTags_eq_iff hd hbelow⟩

/-- Tags without a blank between them are one word, and a word behind a comment sign is read like
any other. -/
theorem declaredTags_ne_tags :
    ((Gherkin.parse? "@A@B\nFeature: F\n").map (·.map (·.heading.tags)) = some (some ["@A", "@B"]) ∧
      declaredTags "@A@B\nFeature: F\n" = ["@A@B"]) ∧
    ((Gherkin.parse? "@A # @B\nFeature: F\n").map (·.map (·.heading.tags)) = some (some ["@A"]) ∧
      declaredTags "@A # @B\nFeature: F\n" = ["@A", "@B"]) := by
  decide +kernel

end SuitePlan
