import SuitePlan.Gherkin.Dialect
import SuitePlan.Gherkin.Document
import SuitePlan.Gherkin.Scan
import SuitePlan.Text.Blank

/-! The grammar of feature documents. A line may end in a line feed or in a carriage return and a
line feed, and only spaces and tabs are skipped within a line. -/

namespace SuitePlan

namespace Gherkin

def isPad (c : Char) : Bool := c = ' ' || c = '\t'

def pads (s : List Char) : List Char := s.dropWhile isPad

def afterNewline? : List Char → Option (List Char)
  | '\n' :: r => some r
  | '\r' :: '\n' :: r => some r
  | _ => none

/-- Skips blanks and line ends. -/
def blankLines : List Char → List Char
  | [] => []
  | '\n' :: r => blankLines r
  | '\r' :: '\n' :: r => blankLines r
  | c :: r => if isPad c then blankLines r else c :: r

/-- Splits off the rest of a line, without its end. -/
def splitLine : List Char → List Char × List Char
  | [] => ([], [])
  | c :: r =>
    if (afterNewline? (c :: r)).isSome then ([], c :: r)
    else
      let (l, t) := splitLine r
      (c :: l, t)

/-- What follows the text of a comment on the same line. -/
def afterCommentText? (s : List Char) : Option (List Char) :=
  match pads s with
  | '#' :: r => some (splitLine r).2
  | _ => none

/-- What follows a line that is empty, or holds a comment only. -/
def afterEmptyLine? (s : List Char) : Option (List Char) :=
  afterNewline? ((afterCommentText? s).getD s)

/-- Skips blanks, line ends and comments. -/
def gaps (comment : Bool) : List Char → List Char
  | [] => []
  | '\n' :: r => gaps false r
  | '\r' :: '\n' :: r => gaps false r
  | c :: r =>
    if comment then gaps true r
    else if isPad c then gaps false r
    else if c = '#' then gaps true r
    else c :: r

/-- Skips lines that are empty or hold a comment only. -/
def emptyLines (s : List Char) : List Char :=
  match afterEmptyLine? s with
  | some r => if r.length < s.length then emptyLines r else s
  | none => s
termination_by s.length

/-- What follows the end of a line and all further blanks, line ends and comments. -/
def afterLineEnd? (s : List Char) : Option (List Char) :=
  let r := gaps false s
  if s.isEmpty || r.length < s.length then some r else none

def afterComment? (s : List Char) : Option (List Char) :=
  (afterCommentText? s).bind afterLineEnd?

def comments (s : List Char) : List Char :=
  match afterComment? s with
  | some r => if r.length < s.length then comments r else s
  | none => s
termination_by s.length

/-- The text after the first keyword of a list that the text begins with. -/
def afterKeyword? (keywords : List String) (s : List Char) : Option (List Char) :=
  let t := comments s
  (keywords.find? fun k => k.toList.isPrefixOf t).map fun k => t.drop k.length

open Scan

def keyword (keywords : List String) : Scan Unit := advance (afterKeyword? keywords)

/-- The rest of a line, which must not be empty. -/
def lineText : Scan (List Char) := fun s =>
  match splitLine s with
  | ([], _) => .missed
  | (l, r) => .found l r

def lineEnd : Scan Unit := advance afterLineEnd?

/-- A language comment. A language that is not known makes the document invalid. -/
def language (dialects : String → Option Dialect) : Scan Dialect := do
  skip blankLines
  exactly ['#']
  skip pads
  exactly "language".toList
  skip pads
  exactly [':']
  skip pads
  let name ← lineText
  skip pads
  advance afterEmptyLine?
  match dialects (String.ofList name) with
  | some d => pure d
  | none => refuse

/-- What follows the first occurrence of a mark. -/
def afterMark? (mark : List Char) : List Char → Option (List Char)
  | [] => none
  | c :: r =>
    if mark.isPrefixOf (c :: r) then some ((c :: r).drop mark.length) else afterMark? mark r

def quoted (mark : List Char) : Scan Unit := do
  exactly mark
  advance (afterMark? mark)
  lineEnd

def docString : Scan Unit := orElse (quoted ['"', '"', '"']) (quoted ['\x60', '\x60', '\x60'])

/-- The text of a table cell begins at a bar and ends before the next one on the line. -/
def afterCell? : List Char → Option (List Char)
  | '|' :: r =>
    let t := pads r
    if t.isEmpty || (afterNewline? t).isSome then none
    else
      let (line, after) := splitLine t
      some (line.dropWhile (· ≠ '|') ++ after)
  | _ => none

/-- A table row, as the number of its cells. -/
def row : Scan Nat := do
  let cells ← manySkipping pads (advance afterCell?)
  skip pads
  exactly ['|']
  skip pads
  lineEnd
  pure cells.length

/-- A table, as the number of its rows. A row that is shorter than the first one makes the document
invalid. -/
def table : Scan Nat := do
  skip pads
  match ← manySkipping pads row with
  | [] => miss
  | width :: widths => if widths.any (· < width) then refuse else pure (widths.length + 1)

def stepBody : Scan Unit := do
  skip pads
  let _ ← lineText
  skip pads
  lineEnd
  skip pads
  let _ ← optional docString
  let _ ← optional table

/-- A step that stands for itself, or one that continues a step before it. -/
def step (d : Dialect) (continued : Bool) : Scan Unit :=
  let first := orElse (keyword d.givenWords *> stepBody)
    (orElse (keyword d.whenWords *> stepBody) (keyword d.thenWords *> stepBody))
  let further := fun words => keyword words *> stepBody *> if continued then pure () else miss
  orElse first (orElse (further d.andWords) (further d.butWords))

/-- Only the first step of a list has no step before it. -/
def steps (d : Dialect) : Scan Unit := do
  match ← optional (step d false) with
  | none => pure ()
  | some () =>
    let _ ← many (skip pads *> step d true)

/-- A line of a description, which neither begins with a tag nor with one of the keywords. -/
def descriptionLine (ending : List String) : Scan Unit := do
  skip pads
  let s ← rest
  if s.head? = some '@' || (afterKeyword? ending s).isSome then miss
  else
    skip pads
    let _ ← lineText
    lineEnd

/-- The keyword line of a part, as its name, and the description below it. -/
def head (keywords ending : List String) : Scan String := do
  keyword keywords
  exactly [':']
  skip pads
  let name ← optional lineText
  skip pads
  lineEnd
  let _ ← manySkipping pads (descriptionLine ending)
  skip (gaps false)
  pure (String.ofList (trimEnd (name.getD [])))

def isTagChar (c : Char) : Bool := !isBlank c && c ≠ '@'

def tag : Scan Tag := fun s =>
  match s with
  | '@' :: r =>
    let t := r.takeWhile isTagChar
    if t.isEmpty then .missed else .found (String.ofList ('@' :: t)) (r.dropWhile isTagChar)
  | _ => .missed

def tags : Scan (List Tag) := do
  let ts ← manySkipping (gaps false) tag
  skip pads
  skip emptyLines
  pure ts

def newlines (s : List Char) : Nat := s.count '\n'

/-- What the grammar depends on: the dialect, and the number of line ends in the document. -/
structure Setting where
  dialect : Dialect
  lineEnds : Nat

namespace Setting

/-- The number of the line on which a rest of the document begins. -/
def lineAt (c : Setting) (s : List Char) : Nat := c.lineEnds - newlines s + 1

/-- A heading, its tags being given. -/
def heading (c : Setting) (tags : List Tag) (keywords ending : List String) : Scan Heading := do
  let s ← rest
  let name ← head keywords ending
  pure ⟨name, tags, c.lineAt s⟩

def background (c : Setting) : Scan Unit := do
  skip comments
  skip pads
  let _ ← head c.dialect.background c.dialect.blockWords
  steps c.dialect

def examples (c : Setting) : Scan Examples := do
  skip comments
  skip pads
  let ts ← tags
  skip pads
  let h ← c.heading ts c.dialect.examples (c.dialect.blockWords ++ ["|"])
  let rows ← optional table
  pure ⟨h.tags, h.line, rows.getD 0 - 1⟩

def scenarioOf (c : Setting) (keywords : List String) : Scan Scenario := do
  skip comments
  skip pads
  let ts ← tags
  skip pads
  let h ← c.heading ts keywords c.dialect.blockWords
  steps c.dialect
  let es ← many c.examples
  pure ⟨h, es⟩

def scenario (c : Setting) : Scan Scenario :=
  orElse (c.scenarioOf c.dialect.scenario) (c.scenarioOf c.dialect.outline)

def scenarios (c : Setting) : Scan (List Child) := do
  skip pads
  let ss ← manySkipping pads c.scenario
  pure (ss.map .scenario)

/-- A background, if there is one, and scenarios. -/
def body (c : Setting) : Scan (List Child) := do
  let _ ← optional c.background
  skip emptyLines
  let ss ← c.scenarios
  skip emptyLines
  pure ss

def rule (c : Setting) : Scan Child := do
  skip pads
  let ts ← tags
  skip pads
  let d := c.dialect
  let h ← c.heading ts d.rule (d.background ++ d.scenario ++ d.outline)
  let ss ← c.body
  pure (.rule h ss)

/-- A feature after its language comment. Its children are the scenarios and then the rules. -/
def feature (c : Setting) : Scan Feature := do
  skip emptyLines
  let ts ← tags
  let d := c.dialect
  let h ← c.heading ts d.feature (d.background ++ d.rule ++ d.scenario ++ d.outline)
  let ss ← c.body
  skip pads
  let rs ← manySkipping pads c.rule
  skip emptyLines
  pure ⟨h, ss ++ rs⟩

end Setting

/-- A whole feature document, which is in English unless it says otherwise. -/
def document (dialects : String → Option Dialect) (lineEnds : Nat) : Scan Feature := do
  skip pads
  let d ← optional (language dialects)
  Setting.feature ⟨d.getD .english, lineEnds⟩

/-- Parses a text with a feature in it. The text is closed by a line end if it has none. -/
def parseFeature? (dialects : String → Option Dialect) (s : List Char) : Option Feature :=
  let t := if s.getLast? = some '\n' then s else s ++ ['\n']
  match document dialects (newlines t) t with
  | .found f [] => some f
  | _ => none

/-- Whether a line holds something other than blanks and a comment. -/
def hasContent (line : List Char) : Bool :=
  let t := trim line
  !t.isEmpty && t.head? ≠ some '#'

def parseChars? (dialects : String → Option Dialect) (s : List Char) : Option Document :=
  let s := dropByteOrderMark s
  if (lines s).any hasContent then (parseFeature? dialects s).map some else some none

/-- Parses a document in one of some dialects. There is none in a text that is not valid. -/
def parseIn? (dialects : String → Option Dialect) (content : String) : Option Document :=
  parseChars? dialects content.toList

def parse? (content : String) : Option Document := parseIn? Dialect.ofName? content

end Gherkin

end SuitePlan
