import SuitePlan.TagExpr.Basic
import SuitePlan.Text.Blank

/-! The legacy grammar, which cuts the text of an expression into pieces: outer parentheses first,
then the last `and not`, the first `or`, the first `and`, and a leading `not`. It never fails. -/

namespace SuitePlan

namespace Legacy

/-- What follows a nonempty run of blanks. -/
def afterBlanks? : List Char → Option (List Char)
  | [] => none
  | c :: r => if isBlank c then some (r.dropWhile isBlank) else none

/-- What follows a word. The word is given in lower case and may stand in any case. -/
def afterAnyCase? (word s : List Char) : Option (List Char) :=
  if (s.take word.length).map Char.toLower = word then some (s.drop word.length) else none

/-- What follows a word that is given as it stands. -/
def afterWord? (word s : List Char) : Option (List Char) :=
  if s.take word.length = word then some (s.drop word.length) else none

/-- What follows an operator with blanks on both sides. -/
def afterOperator? (word s : List Char) : Option (List Char) :=
  (afterBlanks? s).bind fun s => (afterAnyCase? word s).bind afterBlanks?

/-- The text itself, if it is a nonempty line. -/
def line? (s : List Char) : Option (List Char) :=
  if s.isEmpty || s.contains '\n' then none else some s

/-- The operand of a leading `not`. -/
def afterNot? (s : List Char) : Option (List Char) :=
  (afterWord? ['n', 'o', 't'] s).bind fun s => (afterBlanks? s).bind line?

/-- The operand of `and not`, which has to go to the end of the text. -/
def afterAndNot? (s : List Char) : Option (List Char) :=
  (afterOperator? ['a', 'n', 'd'] s).bind afterNot?

/-- Cuts a text at its last `and not`, whatever the depth of parentheses. No line end may stand
before it. -/
def splitAndNot? : List Char → Option (List Char × List Char)
  | [] => none
  | c :: r =>
    if c = '\n' then none
    else
      match splitAndNot? r with
      | some (left, right) => some (c :: left, right)
      | none => (afterAndNot? r).map fun right => ([c], right)

def depthAfter (depth : Int) (c : Char) : Int :=
  if c = '(' then depth + 1 else if c = ')' then depth - 1 else depth

/-- Cuts a text at the first operator outside all parentheses. -/
def splitTop? (word : List Char) (depth : Int) : List Char → Option (List Char × List Char)
  | [] => none
  | c :: r =>
    let depth := depthAfter depth c
    match if depth = 0 then afterOperator? word (c :: r) else none with
    | some right => some ([], right)
    | none => (splitTop? word depth r).map fun (left, right) => (c :: left, right)

/-- Whether the depth is nowhere zero, the last two places left aside. -/
def staysOpen (depth : Int) : List Char → Bool
  | c :: a :: b :: r =>
    let depth := depthAfter depth c
    depth ≠ 0 && staysOpen depth (a :: b :: r)
  | _ => true

/-- Whether the text is taken as one group. -/
def encloses (s : List Char) : Bool :=
  s.head? = some '(' && s.getLast? = some ')' && staysOpen 0 s

/-- The text between the outer parentheses. -/
def inside (s : List Char) : List Char := s.tail.dropLast

/-- An absent operand always holds, so the other one is left. -/
def both : Option TagExpr → Option TagExpr → Option TagExpr
  | some l, some r => some (.and l r)
  | some e, none => some e
  | none, r => r

/-- An absent operand always holds, and then so does the disjunction. -/
def either : Option TagExpr → Option TagExpr → Option TagExpr
  | some l, some r => some (.or l r)
  | _, _ => none

/-- The negation of an absent operand is a contradiction. -/
def negation : Option TagExpr → Option TagExpr
  | some e => some (.not e)
  | none => some (.and (.tag "") (.not (.tag "")))

theorem afterBlanks?_length {s r : List Char} (h : afterBlanks? s = some r) :
    r.length < s.length := by
  cases s with
  | nil => simp [afterBlanks?] at h
  | cons c t =>
    have ht := (List.dropWhile_sublist isBlank (l := t)).length_le
    simp only [afterBlanks?] at h
    split at h
    · cases h
      simp only [List.length_cons]
      omega
    · cases h

theorem afterAnyCase?_length {word s r : List Char} (h : afterAnyCase? word s = some r) :
    r.length ≤ s.length := by
  simp only [afterAnyCase?] at h
  split at h
  · cases h
    simp
  · cases h

theorem afterOperator?_length {word s r : List Char} (h : afterOperator? word s = some r) :
    r.length < s.length := by
  obtain ⟨a, ha, h⟩ := Option.bind_eq_some_iff.mp h
  obtain ⟨b, hb, h⟩ := Option.bind_eq_some_iff.mp h
  have := afterBlanks?_length ha
  have := afterAnyCase?_length hb
  have := afterBlanks?_length h
  omega

theorem line?_eq_some {s r : List Char} (h : line? s = some r) : r = s := by
  simp only [line?] at h
  split at h
  · cases h
  · exact (Option.some.inj h).symm

theorem afterNot?_length {s r : List Char} (h : afterNot? s = some r) : r.length < s.length := by
  obtain ⟨a, ha, h⟩ := Option.bind_eq_some_iff.mp h
  obtain ⟨b, hb, h⟩ := Option.bind_eq_some_iff.mp h
  have hn := afterBlanks?_length hb
  rw [line?_eq_some h]
  simp only [afterWord?] at ha
  split at ha
  · cases ha
    simp only [List.length_drop] at hn
    omega
  · cases ha

theorem splitAndNot?_length {s l r : List Char} (h : splitAndNot? s = some (l, r)) :
    l.length < s.length ∧ r.length < s.length := by
  induction s generalizing l with
  | nil => simp [splitAndNot?] at h
  | cons c t ih =>
    simp only [splitAndNot?] at h
    split at h
    · cases h
    · split at h
      · rename_i left right hs
        cases h
        have := ih hs
        simp only [List.length_cons]
        omega
      · obtain ⟨a, ha, h⟩ := Option.map_eq_some_iff.mp h
        cases h
        obtain ⟨b, hb, ha⟩ := Option.bind_eq_some_iff.mp ha
        have := afterOperator?_length hb
        have := afterNot?_length ha
        simp only [List.length_cons, List.length_nil]
        omega

theorem splitTop?_length {word s l r : List Char} {depth : Int}
    (h : splitTop? word depth s = some (l, r)) : l.length < s.length ∧ r.length < s.length := by
  induction s generalizing l depth with
  | nil => simp [splitTop?] at h
  | cons c t ih =>
    simp only [splitTop?] at h
    split at h
    · rename_i right hr
      cases h
      split at hr
      · have := afterOperator?_length hr
        simpa using this
      · cases hr
    · obtain ⟨⟨a, b⟩, ha, h⟩ := Option.map_eq_some_iff.mp h
      cases h
      have hab := ih ha
      exact ⟨Nat.succ_lt_succ hab.1, Nat.lt_succ_of_lt hab.2⟩

theorem trim_length (s : List Char) : (trim s).length ≤ s.length := by
  have hs := (List.dropWhile_sublist isBlank (l := s)).length_le
  have hr := (List.dropWhile_sublist isBlank (l := (s.dropWhile isBlank).reverse)).length_le
  simp only [trim, trimEnd, trimStart, List.length_reverse] at *
  omega

theorem inside_length {s : List Char} (h : encloses s = true) : (inside s).length < s.length := by
  cases s with
  | nil => simp [encloses] at h
  | cons c t =>
    simp only [inside, List.tail_cons, List.length_dropLast, List.length_cons]
    omega

/-- The expression of a text, absent for a blank one. -/
def parse (s : List Char) : Option TagExpr :=
  let t := trim s
  if t.isEmpty then none
  else if _h : encloses t then parse (inside t)
  else
    match _h : splitAndNot? t with
    | some (left, right) => both (parse left) (negation (parse right))
    | none =>
      match _h : splitTop? ['o', 'r'] 0 t with
      | some (left, right) => either (parse left) (parse right)
      | none =>
        match _h : splitTop? ['a', 'n', 'd'] 0 t with
        | some (left, right) => both (parse left) (parse right)
        | none =>
          match _h : afterNot? t with
          | some operand => negation (parse operand)
          | none => some (.tag (String.ofList t))
termination_by s.length
decreasing_by
  all_goals have ht := trim_length s
  · exact Nat.lt_of_lt_of_le (inside_length _h) ht
  · exact Nat.lt_of_lt_of_le (splitAndNot?_length _h).1 ht
  · exact Nat.lt_of_lt_of_le (splitAndNot?_length _h).2 ht
  · exact Nat.lt_of_lt_of_le (splitTop?_length _h).1 ht
  · exact Nat.lt_of_lt_of_le (splitTop?_length _h).2 ht
  · exact Nat.lt_of_lt_of_le (splitTop?_length _h).1 ht
  · exact Nat.lt_of_lt_of_le (splitTop?_length _h).2 ht
  · exact Nat.lt_of_lt_of_le (afterNot?_length _h) ht

end Legacy

end SuitePlan
