import Mathlib.Data.List.Induction
import Mathlib.Data.List.TakeWhile
import SuitePlan.Proofs.Text.Lines

/-! What the grammar of feature documents passes over on its way to the keyword of the feature, and
the tags it reads there. -/

namespace SuitePlan

namespace Gherkin

/-- From `s` on, blanks, line ends, comments and the tags `ts` lead to the rest `r`. -/
inductive Passes (r : List Char) : List Char → List Tag → Prop
  | here : Passes r r []
  | pad {c : Char} {s : List Char} {ts : List Tag} (hc : isPad c) (h : Passes r s ts) :
      Passes r (c :: s) ts
  | lineEnd {s u : List Char} {ts : List Tag} (hs : afterNewline? s = some u) (h : Passes r u ts) :
      Passes r s ts
  | comment {x s : List Char} {ts : List Tag} (hx : '\n' ∉ x) (h : Passes r s ts) :
      Passes r ('#' :: (x ++ '\n' :: s)) ts
  | tag {w s : List Char} {ts : List Tag} (hne : w ≠ []) (hw : ∀ c ∈ w, isTagChar c)
      (hs : ∀ c ∈ s.head?, isTagChar c = false) (h : Passes r s ts) :
      Passes r ('@' :: (w ++ s)) (String.ofList ('@' :: w) :: ts)

/-- The text begins with a character that is neither blank nor an at sign. -/
def Starts (s : List Char) : Prop := ∃ c u, s = c :: u ∧ isBlank c = false ∧ c ≠ '@'

namespace Passes

variable {r m s : List Char} {ts us : List Tag}

theorem trans (h : Passes m s ts) (h' : Passes r m us) : Passes r s (ts ++ us) := by
  induction h with
  | here => exact h'
  | pad hc _ ih => exact .pad hc ih
  | lineEnd hs _ ih => exact .lineEnd hs ih
  | comment hx _ ih => exact .comment hx ih
  | tag hne hw hs _ ih => exact .tag hne hw hs ih

theorem suffix (h : Passes r s ts) : r <:+ s := by
  induction h with
  | here => exact List.suffix_refl r
  | pad _ _ ih => exact ih.trans (List.suffix_cons _ _)
  | lineEnd hs _ ih =>
    rcases afterNewline?_eq_some hs with rfl | rfl
    · exact ih.trans (List.suffix_cons _ _)
    · exact ih.trans ((List.suffix_cons _ _).trans (List.suffix_cons _ _))
  | @comment x u _ _ _ ih =>
    exact ih.trans ⟨'#' :: (x ++ ['\n']), by simp⟩
  | @tag w u _ _ _ _ _ ih => exact ih.trans ⟨'@' :: w, rfl⟩

theorem pads (s : List Char) : Passes (Gherkin.pads s) s [] := by
  induction s with
  | nil => exact .here
  | cons c s ih =>
    by_cases hc : isPad c
    · rw [Gherkin.pads, List.dropWhile_cons_of_pos hc]
      exact .pad hc ih
    · rw [Gherkin.pads, List.dropWhile_cons_of_neg hc]
      exact .here

theorem blankLines (s : List Char) : Passes (Gherkin.blankLines s) s [] := by
  fun_induction Gherkin.blankLines s with
  | case1 => exact .here
  | case2 r ih => exact .lineEnd rfl ih
  | case3 r ih => exact .lineEnd rfl ih
  | case4 c r _ _ hc ih => exact .pad hc ih
  | case5 => exact .here

end Passes

theorem not_isBlank_of_isTagChar {c : Char} (h : isTagChar c) : isBlank c = false := by
  simp only [isTagChar, Bool.and_eq_true, Bool.not_eq_true'] at h
  exact h.1

/-- No tag has another at sign than the one in front. -/
theorem Passes.tag_form {r s : List Char} {ts : List Tag} (h : Passes r s ts) :
    ∀ t ∈ ts, ∃ w, t.toList = '@' :: w ∧ '@' ∉ w := by
  induction h with
  | here => simp
  | pad _ _ ih | lineEnd _ _ ih | comment _ _ ih => exact ih
  | @tag w _ _ _ hw _ _ ih =>
    intro t ht
    rcases List.mem_cons.mp ht with rfl | ht
    · refine ⟨w, String.toList_ofList, fun hm => ?_⟩
      have hh := hw _ hm
      cases hh
    · exact ih t ht

theorem splitLine_append (s : List Char) : (splitLine s).1 ++ (splitLine s).2 = s := by
  fun_induction splitLine s with
  | case1 => rfl
  | case2 => rfl
  | case3 c r _ l t hlt ih => simpa [hlt] using ih

theorem splitLine_fst (s : List Char) : '\n' ∉ (splitLine s).1 := by
  fun_induction splitLine s with
  | case1 => simp
  | case2 => simp
  | case3 c r hc l t hlt ih =>
    rw [hlt] at ih
    intro hm
    rcases List.mem_cons.mp hm with rfl | hm
    · exact hc rfl
    · exact ih hm

theorem splitLine_snd (s : List Char) :
    (splitLine s).2 = [] ∨ (afterNewline? (splitLine s).2).isSome := by
  fun_induction splitLine s with
  | case1 => exact .inl rfl
  | case2 c r hc => exact .inr hc
  | case3 c r hc l t hlt ih => rwa [hlt] at ih

/-- The text `u` begins on the line on which `s` begins. -/
def OnSameLine (u s : List Char) : Prop := ∃ x, s = x ++ u ∧ '\n' ∉ x

theorem OnSameLine.trans {u v s : List Char} (h : OnSameLine v s) (h' : OnSameLine u v) :
    OnSameLine u s := by
  obtain ⟨x, rfl, hx⟩ := h
  obtain ⟨y, rfl, hy⟩ := h'
  exact ⟨x ++ y, by rw [List.append_assoc], by simp [hx, hy]⟩

theorem onSameLine_pads (s : List Char) : OnSameLine (pads s) s := by
  refine ⟨s.takeWhile isPad, (List.takeWhile_append_dropWhile).symm, fun hm => ?_⟩
  have hn : isPad '\n' = true := List.mem_takeWhile_imp hm
  cases hn

theorem onSameLine_splitLine (s : List Char) : OnSameLine (splitLine s).2 s :=
  ⟨(splitLine s).1, (splitLine_append s).symm, splitLine_fst s⟩

theorem afterCommentText?_eq_some {s u : List Char} (h : afterCommentText? s = some u) :
    ∃ t, pads s = '#' :: t ∧ u = (splitLine t).2 := by
  unfold afterCommentText? at h
  split at h
  · rename_i t ht
    cases h
    exact ⟨t, ht, rfl⟩
  · cases h

/-- An empty line is passed up to its line feed. -/
theorem afterEmptyLine?_eq_some {s r : List Char} (h : afterEmptyLine? s = some r) :
    OnSameLine ('\n' :: r) s := by
  have hline : ∀ u, afterNewline? u = some r → OnSameLine ('\n' :: r) u := by
    intro u hu
    rcases afterNewline?_eq_some hu with rfl | rfl
    · exact ⟨[], rfl, by simp⟩
    · exact ⟨['\r'], rfl, by simp⟩
  unfold afterEmptyLine? at h
  cases hc : afterCommentText? s with
  | none =>
    rw [hc] at h
    exact hline s h
  | some u =>
    rw [hc] at h
    obtain ⟨t, ht, rfl⟩ := afterCommentText?_eq_some hc
    have hhash : OnSameLine t ('#' :: t) := ⟨['#'], rfl, by simp⟩
    have hpads := onSameLine_pads s
    rw [ht] at hpads
    exact ((hpads.trans hhash).trans (onSameLine_splitLine t)).trans (hline _ h)

theorem afterEmptyLine?_length {s r : List Char} (h : afterEmptyLine? s = some r) :
    r.length < s.length := by
  obtain ⟨x, rfl, -⟩ := afterEmptyLine?_eq_some h
  simp only [List.length_append, List.length_cons]
  omega

namespace Passes

variable {r s u : List Char} {ts : List Tag}

/-- Behind a number sign the rest of the line is passed over. -/
theorem hash (h : OnSameLine ('\n' :: r) s) : Passes r ('#' :: s) [] := by
  obtain ⟨x, rfl, hx⟩ := h
  exact .comment hx .here

theorem emptyLine (h : afterEmptyLine? s = some r) : Passes r s [] := by
  unfold afterEmptyLine? at h
  cases hc : afterCommentText? s with
  | none =>
    rw [hc] at h
    exact .lineEnd h .here
  | some u =>
    rw [hc] at h
    obtain ⟨t, ht, rfl⟩ := afterCommentText?_eq_some hc
    have hpads := Passes.pads s
    rw [ht] at hpads
    refine hpads.trans (.hash ((onSameLine_splitLine t).trans ?_))
    rcases afterNewline?_eq_some h with he | he
    · exact ⟨[], he, by simp⟩
    · exact ⟨['\r'], he, by simp⟩

theorem emptyLines (s : List Char) : Passes (Gherkin.emptyLines s) s [] := by
  fun_induction Gherkin.emptyLines s with
  | case1 s r hr _ ih => exact (emptyLine hr).trans ih
  | case2 => exact .here
  | case3 => exact .here

/-- A gap that is followed by something ends outside of comments. -/
theorem gaps (hne : Gherkin.gaps false s ≠ []) : Passes (Gherkin.gaps false s) s [] := by
  -- inside a comment the recursion is only known to come to a line end
  have hall : ∀ comment s, Gherkin.gaps comment s ≠ [] →
      if comment then ∃ u, OnSameLine ('\n' :: u) s ∧ Passes (Gherkin.gaps comment s) u []
      else Passes (Gherkin.gaps comment s) s [] := by
    intro comment s
    fun_induction Gherkin.gaps comment s with
    | case1 => simp
    | case2 comment r ih =>
      intro hr
      split
      · exact ⟨r, ⟨[], rfl, by simp⟩, ih hr⟩
      · exact .lineEnd rfl (ih hr)
    | case3 comment r ih =>
      intro hr
      split
      · exact ⟨r, ⟨['\r'], rfl, by simp⟩, ih hr⟩
      · exact .lineEnd rfl (ih hr)
    | case4 c r hn _ ih =>
      intro hr
      obtain ⟨u, hu, hp⟩ := ih hr
      have hc : OnSameLine r (c :: r) := by
        refine ⟨[c], rfl, ?_⟩
        simpa using fun he : '\n' = c => hn he.symm
      exact ⟨u, hc.trans hu, hp⟩
    | case5 comment c r _ _ hcomment hc ih =>
      intro hr
      rw [if_neg hcomment]
      exact .pad hc (ih hr)
    | case6 comment r hcomment _ _ _ ih =>
      intro hr
      rw [if_neg hcomment]
      obtain ⟨u, hu, hp⟩ := ih hr
      exact (hash hu).trans hp
    | case7 comment c r _ _ hcomment =>
      intro hr
      rw [if_neg hcomment]
      exact .here
  exact hall false s hne

end Passes

theorem afterEmptyLine?_emptyLines (s : List Char) : afterEmptyLine? (emptyLines s) = none := by
  fun_induction emptyLines s with
  | case1 _ _ _ _ ih => exact ih
  | case2 s r hr hn => exact absurd (afterEmptyLine?_length hr) hn
  | case3 s hs => exact hs

/-- What is left behind the empty lines does not begin with a comment that something follows. -/
theorem comments_eq_self {s : List Char} (h : afterEmptyLine? s = none) (hne : comments s ≠ []) :
    comments s = s := by
  rw [comments] at hne ⊢
  cases hc : afterComment? s with
  | none => rfl
  | some r =>
    rw [hc] at hne
    obtain ⟨u, hu, hr⟩ := Option.bind_eq_some_iff.mp hc
    rw [afterEmptyLine?, hu, Option.getD_some] at h
    obtain ⟨t, -, rfl⟩ := afterCommentText?_eq_some hu
    have hnil : (splitLine t).2 = [] := by
      rcases splitLine_snd t with hnil | hsome
      · exact hnil
      · rw [h] at hsome
        cases hsome
    rw [hnil] at hr
    cases hr
    by_cases hlt : ([] : List Char).length < s.length
    · simp only [gaps, hlt, if_true] at hne
      exact (hne (by rw [comments]; rfl)).elim
    · simp only [gaps, hlt, if_false]

namespace Scan

variable {α β : Type} {s r : List Char} {b : β}

theorem bind_found {p : Scan α} {f : α → Scan β} (h : (p >>= f) s = .found b r) :
    ∃ a u, p s = .found a u ∧ f a u = .found b r := by
  simp only [bind] at h
  cases hp : p s with
  | found a u =>
    rw [hp] at h
    exact ⟨a, u, rfl, h⟩
  | missed =>
    rw [hp] at h
    cases h
  | refused =>
    rw [hp] at h
    cases h

theorem skip_bind_found {g : List Char → List Char} {q : Unit → Scan β}
    (h : (skip g >>= q) s = .found b r) : q () (g s) = .found b r := h

theorem pure_found {a b : α} (h : (pure a : Scan α) s = .found b r) : a = b ∧ s = r := by
  cases h
  exact ⟨rfl, rfl⟩

theorem map_found {p : Scan α} {f : α → β} (h : (f <$> p) s = .found b r) :
    ∃ a, p s = .found a r ∧ b = f a := by
  obtain ⟨a, u, hp, h⟩ := bind_found h
  cases h
  exact ⟨a, hp, rfl⟩

theorem optional_found {p : Scan α} {a : Option α} (h : optional p s = .found a r) :
    (a = none ∧ r = s) ∨ ∃ x, a = some x ∧ p s = .found x r := by
  unfold optional orElse at h
  cases hp : (some <$> p) s with
  | found x u =>
    rw [hp] at h
    cases h
    obtain ⟨y, hy, rfl⟩ := map_found hp
    exact .inr ⟨y, rfl, hy⟩
  | missed =>
    rw [hp] at h
    cases h
    exact .inl ⟨rfl, rfl⟩
  | refused =>
    rw [hp] at h
    cases h

theorem advance_found {g : List Char → Option (List Char)} {a : Unit}
    (h : advance g s = .found a r) : g s = some r := by
  unfold advance at h
  split at h
  · cases h
    assumption
  · cases h

theorem exactly_found {t : List Char} {a : Unit} (h : exactly t s = .found a r) : s = t ++ r := by
  unfold exactly at h
  split at h
  · rename_i ht
    cases h
    obtain ⟨u, rfl⟩ := List.isPrefixOf_iff_prefix.mp ht
    rw [List.drop_left]
  · cases h

end Scan

open Scan

theorem onSameLine_exactly {t s r : List Char} {a : Unit} (ht : '\n' ∉ t)
    (h : exactly t s = .found a r) : OnSameLine r s :=
  ⟨t, exactly_found h, ht⟩

theorem onSameLine_lineText {s r l : List Char} (h : lineText s = .found l r) : OnSameLine r s := by
  have hr : (splitLine s).2 = r := by
    unfold lineText at h
    split at h
    · cases h
    · rename_i hs
      cases h
      rw [hs]
  rw [← hr]
  exact onSameLine_splitLine s

variable {dialects : String → Option Dialect}

theorem language_found {s r : List Char} {d : Dialect} (h : language dialects s = .found d r) :
    Passes r s [] := by
  have h := skip_bind_found h
  obtain ⟨_, s₁, h₁, h⟩ := bind_found h
  have h := skip_bind_found h
  obtain ⟨_, s₂, h₂, h⟩ := bind_found h
  have h := skip_bind_found h
  obtain ⟨_, s₃, h₃, h⟩ := bind_found h
  have h := skip_bind_found h
  obtain ⟨name, s₄, h₄, h⟩ := bind_found h
  have h := skip_bind_found h
  obtain ⟨_, s₅, h₅, h⟩ := bind_found h
  have hline : OnSameLine ('\n' :: s₅) s₁ := by
    have h₂ := (onSameLine_pads s₁).trans (onSameLine_exactly (by decide) h₂)
    have h₃ := (h₂.trans (onSameLine_pads s₂)).trans (onSameLine_exactly (by decide) h₃)
    have h₄ := (h₃.trans (onSameLine_pads s₃)).trans (onSameLine_lineText h₄)
    exact (h₄.trans (onSameLine_pads s₄)).trans (afterEmptyLine?_eq_some (advance_found h₅))
  have hblank := Passes.blankLines s
  rw [exactly_found h₁] at hblank
  have hpass := hblank.trans (Passes.hash hline)
  cases hd : dialects (String.ofList name) with
  | some d' =>
    rw [hd] at h
    obtain ⟨-, rfl⟩ := pure_found h
    exact hpass
  | none =>
    rw [hd] at h
    cases h

theorem tag_found {s r : List Char} {t : Tag} (h : tag s = .found t r) : Passes r s [t] := by
  unfold tag at h
  split at h
  · rename_i u
    by_cases hnil : (u.takeWhile isTagChar).isEmpty
    · simp only [hnil, if_true] at h
      cases h
    · simp only [hnil] at h
      cases h
      have hs : u = u.takeWhile isTagChar ++ u.dropWhile isTagChar :=
        List.takeWhile_append_dropWhile.symm
      have hrest := head?_dropWhile_eq_false isTagChar u
      have hne : u.takeWhile isTagChar ≠ [] := fun he => hnil (by rw [he]; rfl)
      have hpass := Passes.tag hne (fun c hc => List.mem_takeWhile_imp hc) hrest .here
      rwa [← hs] at hpass
  · cases h

theorem gap_tag_found {s r : List Char} {t : Tag}
    (h : (do skip (gaps false); tag) s = .found t r) : Passes r s [t] := by
  have ht := skip_bind_found h
  have hne : gaps false s ≠ [] := by
    intro hnil
    rw [hnil] at ht
    cases ht
  exact (Passes.gaps hne).trans (tag_found ht)

theorem many_tags_found {s r : List Char} {ts : List Tag}
    (h : many (do skip (gaps false); tag) s = .found ts r) : Passes r s ts := by
  unfold many at h
  fun_induction repeatFrom (do skip (gaps false); tag) s generalizing ts r with
  | case1 =>
    cases h
    exact .here
  | case2 => cases h
  | case3 s t u ht _ us v hus ih =>
    cases h
    exact (gap_tag_found ht).trans (ih hus)
  | case4 => cases h
  | case5 => cases h
  | case6 s t u ht _ =>
    cases h
    exact gap_tag_found ht

theorem tags_found {s r : List Char} {ts : List Tag} (h : tags s = .found ts r) :
    Passes r s ts ∧ afterEmptyLine? r = none := by
  obtain ⟨us, s₁, h₁, h⟩ := bind_found h
  have h := skip_bind_found (skip_bind_found h)
  obtain ⟨rfl, rfl⟩ := pure_found h
  refine ⟨?_, afterEmptyLine?_emptyLines _⟩
  have hpass : Passes s₁ s us := by
    obtain ⟨t, s₂, h₂, h₃⟩ := bind_found h₁
    rcases optional_found h₂ with ⟨rfl, rfl⟩ | ⟨x, rfl, hx⟩
    · obtain ⟨rfl, rfl⟩ := pure_found h₃
      exact .here
    · obtain ⟨xs, hxs, rfl⟩ := map_found h₃
      exact (tag_found hx).trans (many_tags_found hxs)
  have hrest := (Passes.pads s₁).trans (Passes.emptyLines (pads s₁))
  simpa using hpass.trans hrest

theorem head_found {keywords ending : List String} {s r : List Char} {name : String}
    (h : head keywords ending s = .found name r) :
    ∃ k ∈ keywords, ∃ u, comments s = k.toList ++ ':' :: u := by
  obtain ⟨_, s₁, h₁, h⟩ := bind_found h
  obtain ⟨_, s₂, h₂, -⟩ := bind_found h
  obtain ⟨k, hk, rfl⟩ := Option.map_eq_some_iff.mp (advance_found h₁)
  have hstart := List.find?_some hk
  obtain ⟨u, hu⟩ := List.isPrefixOf_iff_prefix.mp hstart
  have hcolon := exactly_found h₂
  rw [← hu, ← String.length_toList, List.drop_left] at hcolon
  exact ⟨k, List.mem_of_find?_eq_some hk, s₂, by rw [← hu, hcolon]; rfl⟩

theorem starts_of_keyword (d : Dialect) {k : String} (hk : k ∈ d.feature) : Starts k.toList := by
  obtain ⟨c, hc, hgood⟩ := Option.any_eq_true _ _ |>.mp (d.visible k hk)
  obtain ⟨u, hu⟩ := List.head?_eq_some_iff.mp hc
  simp only [Bool.and_eq_true, Bool.not_eq_true', decide_eq_true_eq] at hgood
  exact ⟨c, u, hu, hgood⟩

theorem Setting.feature_found {c : Setting} {s r : List Char} {f : Feature}
    (h : c.feature s = .found f r) :
    ∃ u, Passes u s f.heading.tags ∧ f.heading.line = c.lineAt u ∧
      ∃ k ∈ c.dialect.feature, ∃ v, u = k.toList ++ ':' :: v := by
  have h := skip_bind_found h
  obtain ⟨ts, s₁, h₁, h⟩ := bind_found h
  obtain ⟨g, s₂, h₂, h⟩ := bind_found h
  obtain ⟨ss, s₃, -, h⟩ := bind_found h
  have h := skip_bind_found h
  obtain ⟨rs, s₄, -, h⟩ := bind_found h
  have h := skip_bind_found h
  obtain ⟨rfl, -⟩ := pure_found h
  obtain ⟨hpass, hempty⟩ := tags_found h₁
  obtain ⟨_, _, h₀, h₂⟩ := bind_found h₂
  cases h₀
  obtain ⟨name, s₅, h₅, h₂⟩ := bind_found h₂
  obtain ⟨rfl, -⟩ := pure_found h₂
  obtain ⟨k, hk, v, hv⟩ := head_found h₅
  have hne : comments s₁ ≠ [] := by simp [hv]
  rw [comments_eq_self hempty hne] at hv
  exact ⟨s₁, (Passes.emptyLines s).trans hpass, rfl, k, hk, v, hv⟩

theorem document_found {n : Nat} {s r : List Char} {f : Feature} (h : document dialects n s = .found f r) :
    ∃ u, Passes u s f.heading.tags ∧ f.heading.line = n - newlines u + 1 ∧
      ∃ k v, u = k ++ ':' :: v ∧ Starts k := by
  have h := skip_bind_found h
  obtain ⟨d, s₁, h₁, h⟩ := bind_found h
  have hpass : Passes s₁ (pads s) [] := by
    rcases optional_found h₁ with ⟨-, rfl⟩ | ⟨d, -, hd⟩
    · exact .here
    · exact language_found hd
  obtain ⟨u, hu, hline, k, hk, v, hv⟩ := Setting.feature_found h
  have hall := ((Passes.pads s).trans hpass).trans hu
  exact ⟨u, by simpa using hall, hline, k.toList, v, hv, starts_of_keyword _ hk⟩

/-- A final line end is not needed to reach a rest that begins before it. -/
theorem Passes.of_append_newline {r s : List Char} {ts : List Tag}
    (h : Passes (r ++ ['\n']) (s ++ ['\n']) ts) (hne : r ≠ []) : Passes r s ts := by
  -- no step takes the added line end, because `r` is still before it
  have hcut : ∀ x u s, r ++ ['\n'] <:+ u → x ++ u = s ++ ['\n'] →
      ∃ v, v ≠ [] ∧ u = v ++ ['\n'] ∧ s = x ++ v := by
    rintro x u s ⟨p, rfl⟩ hs
    refine ⟨p ++ r, by simp [hne], by simp, ?_⟩
    rw [← List.append_assoc, ← List.append_assoc] at hs
    rw [← (List.append_inj' hs rfl).1, List.append_assoc]
  generalize ht : s ++ ['\n'] = t at h
  induction h generalizing s with
  | here =>
    rw [(List.append_inj' ht rfl).1]
    exact .here
  | @pad c u _ hc h ih =>
    obtain ⟨v, -, rfl, rfl⟩ := hcut [c] u s h.suffix ht.symm
    exact .pad hc (ih rfl)
  | lineEnd hs h ih =>
    rcases afterNewline?_eq_some hs with rfl | rfl
    · obtain ⟨v, -, rfl, rfl⟩ := hcut ['\n'] _ s h.suffix ht.symm
      exact .lineEnd rfl (ih rfl)
    · obtain ⟨v, -, rfl, rfl⟩ := hcut ['\r', '\n'] _ s h.suffix ht.symm
      exact .lineEnd rfl (ih rfl)
  | @comment x u _ hx h ih =>
    obtain ⟨v, -, rfl, rfl⟩ := hcut ('#' :: (x ++ ['\n'])) u s h.suffix (by simp [ht])
    have hh := Passes.comment hx (ih rfl)
    simpa using hh
  | @tag w u _ hnil hw hs h ih =>
    obtain ⟨v, hv, rfl, rfl⟩ := hcut ('@' :: w) u s h.suffix ht.symm
    obtain ⟨a, v, rfl⟩ := List.exists_cons_of_ne_nil hv
    exact .tag hnil hw hs (ih rfl)

theorem Starts.append {k : List Char} (h : Starts k) (v : List Char) : Starts (k ++ v) := by
  obtain ⟨c, u, rfl, hc⟩ := h
  exact ⟨c, u ++ v, rfl, hc⟩

theorem document_starts {t : List Char} {f : Feature}
    (h : document dialects (newlines t) t = .found f []) :
    ∃ k v, Passes (k ++ ':' :: v) t f.heading.tags ∧ Starts k ∧
      f.heading.line + newlines (k ++ ':' :: v) = newlines t + 1 := by
  obtain ⟨u, hu, hline, k, v, rfl, hk⟩ := document_found h
  have hle : newlines (k ++ ':' :: v) ≤ newlines t := hu.suffix.sublist.count_le '\n'
  exact ⟨k, v, hu, hk, by omega⟩

theorem parseFeature?_found {s : List Char} {f : Feature} (h : parseFeature? dialects s = some f) :
    ∃ r, Passes r s f.heading.tags ∧ Starts r ∧ f.heading.line + newlines r = newlines s + 1 := by
  unfold parseFeature? at h
  by_cases hlast : s.getLast? = some '\n'
  · simp only [if_pos hlast] at h
    split at h
    · rename_i g hg
      cases h
      obtain ⟨k, v, hpass, hk, hline⟩ := document_starts hg
      exact ⟨_, hpass, hk.append _, hline⟩
    · cases h
  · simp only [if_neg hlast] at h
    split at h
    · rename_i g hg
      cases h
      obtain ⟨k, v, hpass, hk, hline⟩ := document_starts hg
      obtain ⟨p, hp⟩ := hpass.suffix
      have hv : ∃ w, v = w ++ ['\n'] := by
        cases v using List.reverseRecOn with
        | nil =>
          rw [← List.append_assoc] at hp
          cases (List.append_inj' hp rfl).2
        | append_singleton w c =>
          rw [← List.cons_append, ← List.append_assoc, ← List.append_assoc] at hp
          exact ⟨w, by rw [(List.append_inj' hp rfl).2]⟩
      obtain ⟨w, rfl⟩ := hv
      have he : k ++ ':' :: (w ++ ['\n']) = (k ++ ':' :: w) ++ ['\n'] := by simp
      rw [he] at hpass hline
      refine ⟨k ++ ':' :: w, hpass.of_append_newline (by simp), hk.append _, ?_⟩
      simp only [newlines, List.count_append] at hline ⊢
      omega
    · cases h

/-- The tags of a feature are those in the margin above its keyword. -/
theorem passes_of_parse {content : String} {f : Feature}
    (h : parseIn? dialects content = some (some f)) :
    ∃ r, Passes r (dropByteOrderMark content.toList) f.heading.tags ∧ Starts r ∧
      f.heading.line + newlines r = newlines (dropByteOrderMark content.toList) + 1 := by
  unfold parseIn? parseChars? at h
  generalize dropByteOrderMark content.toList = s at h ⊢
  simp only at h
  split at h
  · obtain ⟨g, hg, hf⟩ := Option.map_eq_some_iff.mp h
    cases hf
    exact parseFeature?_found hg
  · cases h

end Gherkin

end SuitePlan
