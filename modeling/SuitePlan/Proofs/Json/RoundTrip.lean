import SuitePlan.Json.Reader
import SuitePlan.Proofs.Json.Lexing

/-! Reading back what was written. In both layouts a value comes back with all its strings, items and
members, and with each numeral as its text is read. -/

namespace SuitePlan

namespace Json

mutual

/-- The numerals in a value from left to right. -/
def numerals : Json → List Numeral
  | .number n => [n]
  | .array items => itemNumerals items
  | .object members => memberNumerals members
  | _ => []

def itemNumerals : List Json → List Numeral
  | [] => []
  | j :: js => numerals j ++ itemNumerals js

def memberNumerals : List (Option String × Json) → List Numeral
  | [] => []
  | (_, j) :: ms => numerals j ++ memberNumerals ms

end

mutual

def mapNumerals (f : Numeral → Numeral) : Json → Json
  | .number n => .number (f n)
  | .array items => .array (mapItems f items)
  | .object members => .object (mapMembers f members)
  | j => j

def mapItems (f : Numeral → Numeral) : List Json → List Json
  | [] => []
  | j :: js => mapNumerals f j :: mapItems f js

def mapMembers (f : Numeral → Numeral) :
    List (Option String × Json) → List (Option String × Json)
  | [] => []
  | (k, j) :: ms => (k, mapNumerals f j) :: mapMembers f ms

end

mutual

theorem mapNumerals_eq_self {f : Numeral → Numeral} :
    ∀ j : Json, (∀ n ∈ j.numerals, f n = n) → j.mapNumerals f = j
  | .null, _ => rfl
  | .boolean _, _ => rfl
  | .string _, _ => rfl
  | .number n, h => by rw [mapNumerals, h n List.mem_cons_self]
  | .array items, h => by rw [mapNumerals, mapItems_eq_self items h]
  | .object members, h => by rw [mapNumerals, mapMembers_eq_self members h]

theorem mapItems_eq_self {f : Numeral → Numeral} :
    ∀ js : List Json, (∀ n ∈ itemNumerals js, f n = n) → mapItems f js = js
  | [], _ => rfl
  | j :: js, h => by
    rw [mapItems, mapNumerals_eq_self j fun n hn => h n (List.mem_append_left _ hn),
      mapItems_eq_self js fun n hn => h n (List.mem_append_right _ hn)]

theorem mapMembers_eq_self {f : Numeral → Numeral} :
    ∀ ms : List (Option String × Json), (∀ n ∈ memberNumerals ms, f n = n) → mapMembers f ms = ms
  | [], _ => rfl
  | (k, j) :: ms, h => by
    rw [mapMembers, mapNumerals_eq_self j fun n hn => h n (List.mem_append_left _ hn),
      mapMembers_eq_self ms fun n hn => h n (List.mem_append_right _ hn)]

end

/-- The text of some pieces. -/
def spell (ps : List Piece) : List Char := ps.flatMap fun (gap, l) => gap ++ l.render

/-- The lexemes that are read from the text of some pieces. -/
def lexemes (ps : List Piece) : List Lexeme := ps.map (·.2.reread)

theorem spell_append (ps qs : List Piece) : spell (ps ++ qs) = spell ps ++ spell qs :=
  List.flatMap_append

theorem lexemes_append (ps qs : List Piece) : lexemes (ps ++ qs) = lexemes ps ++ lexemes qs :=
  List.map_append

theorem lexemes_nil : lexemes [] = [] := rfl

theorem lexemes_cons (gap : List Char) (l : Lexeme) (ps : List Piece) :
    lexemes ((gap, l) :: ps) = l.reread :: lexemes ps := rfl

open Lexeme (Cuts EndsNumber Ends isGap)

/-- Before the text `rest` the pieces are cut as they were laid out. -/
def Separate (ps : List Piece) (rest : List Char) : Prop := Cuts (spell ps ++ rest) (lexemes ps) rest

theorem Separate.append {ps qs : List Piece} {rest : List Char} (h : Separate ps (spell qs ++ rest))
    (h' : Separate qs rest) : Separate (ps ++ qs) rest := by
  rw [Separate, spell_append, lexemes_append, List.append_assoc]
  exact h.trans h'

theorem Separate.nil (rest : List Char) : Separate [] rest := Cuts.refl rest

theorem Separate.piece {gap : List Char} (hg : ∀ c ∈ gap, isGap c) {l : Lexeme} (hl : l.Plain)
    {rest : List Char} (hr : l.Ends rest) : Separate [(gap, l)] rest := by
  have hh := Cuts.lexeme hg hl hr
  rwa [← List.append_assoc, ← List.flatMap_singleton (fun (p : Piece) => p.1 ++ p.2.render) (gap, l)]
    at hh

/-- Only a number depends on what stands behind it. -/
theorem Separate.mark {gap : List Char} (hg : ∀ c ∈ gap, isGap c) {l : Lexeme}
    (hl : ∀ n, l ≠ .number n) {ps : List Piece} {rest : List Char} (h : Separate ps rest) :
    Separate ((gap, l) :: ps) rest := by
  have hplain : l.Plain := by
    cases l with
    | number n => exact (hl n rfl).elim
    | _ => trivial
  have hends : l.Ends (spell ps ++ rest) := by
    cases l with
    | number n => exact (hl n rfl).elim
    | _ => trivial
  exact (Separate.piece hg hplain hends).append h

theorem isGap_newline (style : Layout) (level : Nat) : ∀ c ∈ style.newline level, isGap c := by
  intro c hc
  cases style with
  | compact => cases hc
  | pretty =>
    rcases List.mem_cons.mp hc with rfl | hc
    · rfl
    · rw [List.eq_of_mem_replicate hc]
      rfl

theorem isGap_space (style : Layout) : ∀ c ∈ style.space, isGap c := by
  intro c hc
  cases style with
  | compact => cases hc
  | pretty =>
    rw [List.mem_singleton.mp hc]
    rfl

theorem isGap_nil : ∀ c ∈ ([] : List Char), isGap c := by simp

theorem endsNumber_cons {c : Char} (h : c = ',' ∨ c = ']' ∨ c = '\x7d' ∨ c = '\n') (s : List Char) :
    EndsNumber (c :: s) := by
  intro d hd
  obtain rfl : c = d := Option.some.inj hd
  rcases h with rfl | rfl | rfl | rfl <;> decide

/-- A number may stand before the end of the array or object it is in. -/
theorem endsNumber_close {l : Lexeme} (hl : l = .closeArray ∨ l = .closeObject) (style : Layout)
    (level : Nat) (rest : List Char) : EndsNumber (spell [(style.newline level, l)] ++ rest) := by
  cases style with
  | compact =>
    rcases hl with rfl | rfl
    · exact endsNumber_cons (by simp) rest
    · exact endsNumber_cons (by simp) rest
  | pretty =>
    rcases hl with rfl | rfl
    · exact endsNumber_cons (by simp) _
    · exact endsNumber_cons (by simp) _

theorem endsNumber_items (style : Layout) (level : Nat) (js : List Json) {rest : List Char}
    (hr : EndsNumber rest) : EndsNumber (spell (layOutItems style level js) ++ rest) := by
  cases js with
  | nil => exact hr
  | cons j js => exact endsNumber_cons (by simp) _

theorem endsNumber_members (style : Layout) (level : Nat) (ms : List (Option String × Json))
    {rest : List Char} (hr : EndsNumber rest) :
    EndsNumber (spell (layOutMembers style level ms) ++ rest) := by
  cases ms with
  | nil => exact hr
  | cons m ms => exact endsNumber_cons (by simp) _

mutual

theorem separate_layOut (style : Layout) (level : Nat) {gap : List Char} (hg : ∀ c ∈ gap, isGap c) :
    ∀ j : Json, (∀ n ∈ j.numerals, n.Plain) → ∀ rest, EndsNumber rest →
      Separate (layOut style level gap j) rest
  | .null, _, rest, _ => Separate.mark hg (by simp) (Separate.nil rest)
  | .boolean _, _, rest, _ => Separate.mark hg (by simp) (Separate.nil rest)
  | .string _, _, rest, _ => Separate.mark hg (by simp) (Separate.nil rest)
  | .number n, h, rest, hr => Separate.piece (l := .number n) hg (h n List.mem_cons_self) hr
  | .array [], _, rest, _ =>
    Separate.mark hg (by simp) (Separate.mark isGap_nil (by simp) (Separate.nil rest))
  | .array (j :: js), h, rest, hr => by
    have hclose := endsNumber_close (.inl rfl) style level rest
    have hlast : Separate [(style.newline level, Lexeme.closeArray)] rest :=
      Separate.mark (isGap_newline style level) (by simp) (Separate.nil rest)
    have hitems := separate_layOutItems style (level + 1) js
      (fun n hn => h n (List.mem_append_right _ hn)) _ hclose
    have hfirst := separate_layOut style (level + 1) (isGap_newline style (level + 1)) j
      (fun n hn => h n (List.mem_append_left _ hn)) _ (endsNumber_items style (level + 1) js hclose)
    rw [← List.append_assoc, ← spell_append] at hfirst
    have hrest := hfirst.append (hitems.append hlast)
    simp only [layOut, List.cons_append, List.append_assoc]
    exact Separate.mark hg (by simp) hrest
  | .object [], _, rest, _ =>
    Separate.mark hg (by simp) (Separate.mark isGap_nil (by simp) (Separate.nil rest))
  | .object ((k, j) :: ms), h, rest, hr => by
    have hclose := endsNumber_close (.inr rfl) style level rest
    have hlast : Separate [(style.newline level, Lexeme.closeObject)] rest :=
      Separate.mark (isGap_newline style level) (by simp) (Separate.nil rest)
    have hmembers := separate_layOutMembers style (level + 1) ms
      (fun n hn => h n (List.mem_append_right _ hn)) _ hclose
    have hfirst := separate_layOut style (level + 1) (isGap_space style) j
      (fun n hn => h n (List.mem_append_left _ hn)) _ (endsNumber_members style (level + 1) ms hclose)
    rw [← List.append_assoc, ← spell_append] at hfirst
    have hrest := hfirst.append (hmembers.append hlast)
    simp only [layOut, List.cons_append, List.append_assoc]
    exact Separate.mark hg (by simp) (Separate.mark (isGap_newline style (level + 1)) (by simp)
      (Separate.mark isGap_nil (by simp) hrest))

theorem separate_layOutItems (style : Layout) (level : Nat) :
    ∀ js : List Json, (∀ n ∈ itemNumerals js, n.Plain) → ∀ rest, EndsNumber rest →
      Separate (layOutItems style level js) rest
  | [], _, rest, _ => Separate.nil rest
  | j :: js, h, rest, hr => by
    have hitems := separate_layOutItems style level js
      (fun n hn => h n (List.mem_append_right _ hn)) rest hr
    have hfirst := separate_layOut style level (isGap_newline style level) j
      (fun n hn => h n (List.mem_append_left _ hn)) _ (endsNumber_items style level js hr)
    exact Separate.mark isGap_nil (by simp) (hfirst.append hitems)

theorem separate_layOutMembers (style : Layout) (level : Nat) :
    ∀ ms : List (Option String × Json), (∀ n ∈ memberNumerals ms, n.Plain) → ∀ rest, EndsNumber rest →
      Separate (layOutMembers style level ms) rest
  | [], _, rest, _ => Separate.nil rest
  | (k, j) :: ms, h, rest, hr => by
    have hmembers := separate_layOutMembers style level ms
      (fun n hn => h n (List.mem_append_right _ hn)) rest hr
    have hfirst := separate_layOut style level (isGap_space style) j
      (fun n hn => h n (List.mem_append_left _ hn)) _ (endsNumber_members style level ms hr)
    exact Separate.mark isGap_nil (by simp) (Separate.mark (isGap_newline style level) (by simp)
      (Separate.mark isGap_nil (by simp) (hfirst.append hmembers)))

end

/-- The first piece of a value begins a value. -/
theorem layOut_eq_cons (style : Layout) (level : Nat) (gap : List Char) (j : Json) :
    ∃ l ps, layOut style level gap j = (gap, l) :: ps ∧ l.reread ≠ .closeArray := by
  cases j with
  | null => exact ⟨_, _, rfl, by simp [Lexeme.reread]⟩
  | boolean b => exact ⟨_, _, rfl, by simp [Lexeme.reread]⟩
  | number n => exact ⟨_, _, rfl, by simp [Lexeme.reread]⟩
  | string s => exact ⟨_, _, rfl, by simp [Lexeme.reread]⟩
  | array items =>
    cases items with
    | nil => exact ⟨_, _, rfl, by simp [Lexeme.reread]⟩
    | cons j js => exact ⟨_, _, rfl, by simp [Lexeme.reread]⟩
  | object members =>
    cases members with
    | nil => exact ⟨_, _, rfl, by simp [Lexeme.reread]⟩
    | cons m ms => exact ⟨_, _, rfl, by simp [Lexeme.reread]⟩

/-- Takes lexemes in one after another. -/
def Reading.run (r : Reading) (ls : List Lexeme) : Option Reading := ls.foldlM Reading.step r

theorem Reading.run_cons (r : Reading) (l : Lexeme) (ls : List Lexeme) :
    r.run (l :: ls) = (r.step l).bind fun r => r.run ls := rfl

theorem Reading.run_append {r r' : Reading} {ls : List Lexeme} (h : r.run ls = some r')
    (ms : List Lexeme) : r.run (ls ++ ms) = r'.run ms := by
  rw [run, List.foldlM_append]
  rw [run] at h
  rw [h]
  rfl

/-- The first item of an array is read like the others. -/
theorem Reading.run_itemOrClose (around : List Enclosing) {l : Lexeme} (h : l ≠ .closeArray)
    (ls : List Lexeme) :
    Reading.run ⟨.itemOrClose, around⟩ (l :: ls) =
      Reading.run ⟨.value, .array [] :: around⟩ (l :: ls) := by
  have hstep : Reading.step ⟨.itemOrClose, around⟩ l = Reading.ofValue (.array [] :: around) l := by
    cases l with
    | closeArray => exact (h rfl).elim
    | _ => rfl
  rw [run_cons, run_cons, hstep]
  rfl

mutual

theorem run_layOut (style : Layout) (level : Nat) (gap : List Char) (around : List Enclosing) :
    ∀ j : Json, Reading.run ⟨.value, around⟩ (lexemes (layOut style level gap j)) =
      some ⟨.after (j.mapNumerals Numeral.reread), around⟩
  | .null => rfl
  | .boolean _ => rfl
  | .string _ => rfl
  | .number _ => rfl
  | .array [] => rfl
  | .array (j :: js) => by
    have hfirst := run_layOut style (level + 1) (style.newline (level + 1)) (.array [] :: around) j
    have hitems := run_layOutItems style (level + 1) around js [] (j.mapNumerals Numeral.reread)
    have hrun := (Reading.run_append hfirst _).trans hitems
    obtain ⟨l, ps, hps, hl⟩ := layOut_eq_cons style (level + 1) (style.newline (level + 1)) j
    have hopen : Reading.run ⟨.itemOrClose, around⟩
        (lexemes (layOut style (level + 1) (style.newline (level + 1)) j) ++
          (lexemes (layOutItems style (level + 1) js) ++ [.closeArray])) =
        some ⟨.after (.array (j.mapNumerals Numeral.reread :: mapItems Numeral.reread js)), around⟩ := by
      rw [hps] at hrun ⊢
      exact (Reading.run_itemOrClose around hl _).trans hrun
    simp only [layOut, List.cons_append, lexemes_append, lexemes_cons, lexemes_nil, List.append_assoc]
    exact hopen
  | .object [] => rfl
  | .object ((k, j) :: ms) => by
    have hfirst := run_layOut style (level + 1) style.space (.object [] k :: around) j
    have hmembers := run_layOutMembers style (level + 1) around ms [] k (j.mapNumerals Numeral.reread)
    have hrun := (Reading.run_append hfirst _).trans hmembers
    simp only [layOut, List.cons_append, lexemes_append, lexemes_cons, lexemes_nil, List.append_assoc]
    exact hrun

theorem run_layOutItems (style : Layout) (level : Nat) (around : List Enclosing) :
    ∀ (js before : List Json) (j : Json),
      Reading.run ⟨.after j, .array before :: around⟩
          (lexemes (layOutItems style level js) ++ [.closeArray]) =
        some ⟨.after (.array (before.reverse ++ j :: mapItems Numeral.reread js)), around⟩
  | [], before, j => by
    have hclose : Reading.run ⟨.after j, .array before :: around⟩ [.closeArray] =
        some ⟨.after (.array (j :: before).reverse), around⟩ := rfl
    rw [List.reverse_cons] at hclose
    exact hclose
  | i :: js, before, j => by
    have hfirst := run_layOut style level (style.newline level) (.array (j :: before) :: around) i
    have hitems := run_layOutItems style level around js (j :: before) (i.mapNumerals Numeral.reread)
    have hrun := (Reading.run_append hfirst _).trans hitems
    rw [List.reverse_cons, List.append_assoc, List.singleton_append, ← mapItems] at hrun
    simp only [layOutItems, lexemes_append, lexemes_cons, List.cons_append, List.append_assoc]
    exact hrun

theorem run_layOutMembers (style : Layout) (level : Nat) (around : List Enclosing) :
    ∀ (ms before : List (Option String × Json)) (k : Option String) (j : Json),
      Reading.run ⟨.after j, .object before k :: around⟩
          (lexemes (layOutMembers style level ms) ++ [.closeObject]) =
        some ⟨.after (.object (before.reverse ++ (k, j) :: mapMembers Numeral.reread ms)), around⟩
  | [], before, k, j => by
    have hclose : Reading.run ⟨.after j, .object before k :: around⟩ [.closeObject] =
        some ⟨.after (.object ((k, j) :: before).reverse), around⟩ := rfl
    rw [List.reverse_cons] at hclose
    exact hclose
  | (k', i) :: ms, before, k, j => by
    have hfirst := run_layOut style level style.space (.object ((k, j) :: before) k' :: around) i
    have hmembers := run_layOutMembers style level around ms ((k, j) :: before) k'
      (i.mapNumerals Numeral.reread)
    have hrun := (Reading.run_append hfirst _).trans hmembers
    rw [List.reverse_cons, List.append_assoc, List.singleton_append, ← mapMembers] at hrun
    simp only [layOutMembers, lexemes_append, lexemes_cons, List.cons_append, List.append_assoc]
    exact hrun

end

/-- A value is read back from its text with each numeral as its digits are read. -/
theorem ofChars?_render {j : Json} (h : ∀ n ∈ j.numerals, n.Plain) (style : Layout) :
    ofChars? (j.render style) = some (j.mapNumerals Numeral.reread) := by
  have hend : EndsNumber [] := by simp [EndsNumber]
  have hcut := separate_layOut style 0 isGap_nil j h [] hend
  have hnil : Lexeme.scanAll [] = some [] := by simp [Lexeme.scanAll]
  rw [Separate, Cuts, List.append_nil, hnil, Option.map_some, List.append_nil] at hcut
  have hread := run_layOut style 0 [] [] j
  have hscan : Lexeme.scanAll (j.render style) = some (lexemes (layOut style 0 [] j)) := hcut
  rw [ofChars?, hscan, Option.bind_some, ofLexemes]
  rw [Reading.run] at hread
  rw [hread]
  rfl

/-- The text of a value in one of the layouts. -/
def textIn (style : Layout) (j : Json) : String := String.ofList (j.render style)

theorem ofText?_textIn {j : Json} (h : ∀ n ∈ j.numerals, n.Plain) (style : Layout) :
    ofText? (j.textIn style) = some (j.mapNumerals Numeral.reread) := by
  rw [ofText?, textIn, String.toList_ofList]
  exact ofChars?_render h style

theorem ofText?_textIn_self {j : Json} (h : ∀ n ∈ j.numerals, n.Plain ∧ n.reread = n)
    (style : Layout) : ofText? (j.textIn style) = some j := by
  rw [ofText?_textIn (fun n hn => (h n hn).1) style, mapNumerals_eq_self j fun n hn => (h n hn).2]

end Json

end SuitePlan
