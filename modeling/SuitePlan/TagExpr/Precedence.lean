import SuitePlan.TagExpr.Basic
import SuitePlan.TagExpr.Token

/-! The precedence grammar, in which `or` binds weaker than `and` and `and` weaker than `not`. One
pass over the tokens keeps what is pending at each depth of parentheses. -/

namespace SuitePlan

inductive TagExprError where
  /-- A parenthesis without its partner. -/
  | unpairedParen (position : Nat)
  /-- A token that cannot stand where it does. -/
  | misplacedToken (token : String) (position : Nat)
  /-- An operand is missing at the end. -/
  | missingOperand
deriving DecidableEq, Repr

def TagExprError.message : TagExprError → String
  | unpairedParen position => "Unbalanced parenthesis at position " ++ toString position
  | misplacedToken token position =>
    "Unexpected '" ++ token ++ "' at position " ++ toString position
  | missingOperand => "Unexpected end of expression"

/-- What waits for the operand being read: the left side of an `or`, the left side of an `and`
inside it, and negations. -/
structure Pending where
  disjunct : Option TagExpr := none
  conjunct : Option TagExpr := none
  negations : Nat := 0
deriving DecidableEq, Repr

namespace Pending

def negate : Nat → TagExpr → TagExpr
  | 0, e => e
  | n + 1, e => .not (negate n e)

/-- The conjunction that ends with the operand `e`. -/
def conjoin (p : Pending) (e : TagExpr) : TagExpr :=
  match p.conjunct with
  | none => negate p.negations e
  | some l => .and l (negate p.negations e)

/-- The disjunction that ends with the operand `e`. -/
def disjoin (p : Pending) (e : TagExpr) : TagExpr :=
  match p.disjunct with
  | none => p.conjoin e
  | some l => .or l (p.conjoin e)

end Pending

/-- A group that has been opened, with what was pending before it. -/
structure Group where
  position : Nat
  outside : Pending
deriving DecidableEq, Repr

/-- The operand at the current depth: still to come, a run of words, or a finished group. -/
inductive Operand where
  | missing
  | words (text : List Char)
  | closed (e : TagExpr)
deriving DecidableEq, Repr

def Operand.expr? : Operand → Option TagExpr
  | missing => none
  | words text => some (.tag (String.ofList text))
  | closed e => some e

structure Parse where
  operand : Operand := .missing
  pending : Pending := {}
  groups : List Group := []
deriving DecidableEq, Repr

namespace Parse

def atToken (t : Token) : TagExprError := .misplacedToken t.content t.start

/-- The error when a complete operand is followed by `t`, or by the end, and that fits nowhere.
Inside a group the closing parenthesis is what is missing. -/
def misplaced (groups : List Group) (t : Token) : TagExprError :=
  match groups with
  | g :: _ => .unpairedParen g.position
  | [] => atToken t

/-- Reads a token where an operand may begin. -/
def beginOperand (p : Pending) (groups : List Group) (t : Token) : Except TagExprError Parse :=
  match t.kind with
  | .not => .ok ⟨.missing, { p with negations := p.negations + 1 }, groups⟩
  | .opening => .ok ⟨.missing, {}, ⟨t.start, p⟩ :: groups⟩
  | .word => .ok ⟨.words t.text, p, groups⟩
  | _ => .error (atToken t)

/-- Reads an operator or a closing parenthesis behind the operand `e`. -/
def afterOperand (e : TagExpr) (p : Pending) (groups : List Group) (t : Token) :
    Except TagExprError Parse :=
  match t.kind, groups with
  | .and, _ => .ok ⟨.missing, ⟨p.disjunct, some (p.conjoin e), 0⟩, groups⟩
  | .or, _ => .ok ⟨.missing, ⟨some (p.disjoin e), none, 0⟩, groups⟩
  | .closing, g :: outer => .ok ⟨.closed (p.disjoin e), g.outside, outer⟩
  | .closing, [] => .error (.unpairedParen t.start)
  | _, _ => .error (misplaced groups t)

def step (s : Parse) (t : Token) : Except TagExprError Parse :=
  match s.operand with
  | .missing => beginOperand s.pending s.groups t
  | .words text =>
    if t.kind = .word then .ok { s with operand := .words (text ++ t.gap ++ t.text) }
    else afterOperand (.tag (String.ofList text)) s.pending s.groups t
  | .closed e => afterOperand e s.pending s.groups t

def finish (s : Parse) : Except TagExprError TagExpr :=
  match s.operand.expr?, s.groups with
  | none, _ => .error .missingOperand
  | some _, g :: _ => .error (.unpairedParen g.position)
  | some e, [] => .ok (s.pending.disjoin e)

end Parse

namespace Precedence

/-- Parses the tokens of an expression. There is no expression in a text without tokens. -/
def parseTokens (ts : List Token) : Except TagExprError (Option TagExpr) :=
  if ts.isEmpty then .ok none else some <$> (ts.foldlM Parse.step {} >>= Parse.finish)

def parse (s : List Char) : Except TagExprError (Option TagExpr) := parseTokens (tokensOf s)

end Precedence

end SuitePlan
