import SuitePlan.Json.Lexer

/-! Reading a JSON value from its lexemes, one lexeme at a time. -/

namespace SuitePlan

namespace Json

/-- An array or object that has begun: what stands in it so far, in reverse, and for an object
the key whose value is being read. -/
inductive Enclosing where
  | array (before : List Json)
  | object (before : List (Option String × Json)) (key : Option String)

/-- What may come next. -/
inductive Expecting where
  | value
  | itemOrClose
  | key (before : List (Option String × Json))
  | keyOrClose
  | colon (before : List (Option String × Json)) (key : Option String)
  | after (j : Json)

structure Reading where
  expecting : Expecting := .value
  around : List Enclosing := []

namespace Reading

def ofValue (around : List Enclosing) : Lexeme → Option Reading
  | .null => some ⟨.after .null, around⟩
  | .boolean b => some ⟨.after (.boolean b), around⟩
  | .number n => some ⟨.after (.number n), around⟩
  | .string s => some ⟨.after (.string s), around⟩
  | .openArray => some ⟨.itemOrClose, around⟩
  | .openObject => some ⟨.keyOrClose, around⟩
  | _ => none

/-- Continues the array or object that holds a complete value. -/
def ofAfter (j : Json) : List Enclosing → Lexeme → Option Reading
  | .array before :: around, .comma => some ⟨.value, .array (j :: before) :: around⟩
  | .array before :: around, .closeArray => some ⟨.after (.array (j :: before).reverse), around⟩
  | .object before k :: around, .comma => some ⟨.key ((k, j) :: before), around⟩
  | .object before k :: around, .closeObject =>
    some ⟨.after (.object ((k, j) :: before).reverse), around⟩
  | _, _ => none

def step (r : Reading) (l : Lexeme) : Option Reading :=
  match r.expecting, l with
  | .value, l => ofValue r.around l
  | .itemOrClose, .closeArray => some ⟨.after (.array []), r.around⟩
  | .itemOrClose, l => ofValue (.array [] :: r.around) l
  | .keyOrClose, .closeObject => some ⟨.after (.object []), r.around⟩
  | .keyOrClose, .string k => some ⟨.colon [] k, r.around⟩
  | .key before, .string k => some ⟨.colon before k, r.around⟩
  | .colon before k, .colon => some ⟨.value, .object before k :: r.around⟩
  | .after j, l => ofAfter j r.around l
  | _, _ => none

/-- The number of arrays and objects that have begun and not ended. -/
def level (r : Reading) : Nat :=
  match r.expecting with
  | .value | .after _ => r.around.length
  | _ => r.around.length + 1

/-- A step that does not begin more arrays and objects inside each other than are allowed. -/
def stepWithin (limit : Nat) (r : Reading) (l : Lexeme) : Option Reading :=
  (r.step l).filter (·.level ≤ limit)

def finish (r : Reading) : Option Json :=
  match r.expecting, r.around with
  | .after j, [] => some j
  | _, _ => none

end Reading

def ofLexemes (ls : List Lexeme) : Option Json :=
  (ls.foldlM Reading.step {}).bind Reading.finish

def ofLexemesWithin (limit : Nat) (ls : List Lexeme) : Option Json :=
  (ls.foldlM (Reading.stepWithin limit) {}).bind Reading.finish

def ofChars? (s : List Char) : Option Json := (Lexeme.scanAll s).bind ofLexemes

/-- Reads a JSON document. -/
def ofText? (s : String) : Option Json := ofChars? s.toList

/-- Reads a JSON document as far as it is not nested more deeply than is allowed. -/
def ofTextWithin? (limit : Nat) (s : String) : Option Json :=
  (Lexeme.scanAll s.toList).bind (ofLexemesWithin limit)

end Json

end SuitePlan
