import SuitePlan.Proofs.Json.Nesting
import SuitePlan.Proofs.Json.Record
import SuitePlan.TagExpr.Document

/-! Expressions come back from their documents, up to the nesting that is read. -/

namespace SuitePlan

namespace TagExpr

/-- The number of nodes on the longest way from the root to a leaf. -/
def height : TagExpr → Nat
  | tag _ => 1
  | and left right => max left.height right.height + 1
  | or left right => max left.height right.height + 1
  | not operand => operand.height + 1
  | unknown => 1

theorem numerals_toJson (e : TagExpr) : e.toJson.numerals = [] := by
  induction e with
  | tag value => rfl
  | and l r ihl ihr => simp [toJson, ihl, ihr]
  | or l r ihl ihr => simp [toJson, ihl, ihr]
  | not e ih => simp [toJson, ih]
  | unknown => rfl

theorem depth_toJson (e : TagExpr) : e.toJson.depth = e.height := by
  induction e with
  | tag value => rfl
  | and l r ihl ihr => simp [toJson, height, ihl, ihr]
  | or l r ihl ihr => simp [toJson, height, ihl, ihr]
  | not e ih => simp [toJson, height, ih]
  | unknown => rfl

theorem isPlain_toJson (e : TagExpr) : e.toJson.isPlain := by
  induction e with
  | tag value => rfl
  | and l r ihl ihr => simp [toJson, ihl, ihr]
  | or l r ihl ihr => simp [toJson, ihl, ihr]
  | not e ih => simp [toJson, ih]
  | unknown => rfl

/-- A node is known by its kind, whether it stands alone or inside another one. -/
theorem ofNode?_toJson (inner : Bool) (e : TagExpr) : ofNode? inner e.toJson = some e := by
  induction e generalizing inner with
  | tag value =>
    simp [toJson, Json.record, ofNode?, memberParts, ofMembers?, onlyMember?, Kind.ofJson?, Kind.ofName,
      Kind.fieldNames, ofFields?, Json.text, Json.asText?]
  | and l r ihl ihr =>
    simp [toJson, Json.record, ofNode?, memberParts, ofMembers?, onlyMember?, Kind.ofJson?, Kind.ofName,
      Kind.fieldNames, ofFields?, Json.text, ihl, ihr]
  | or l r ihl ihr =>
    simp [toJson, Json.record, ofNode?, memberParts, ofMembers?, onlyMember?, Kind.ofJson?, Kind.ofName,
      Kind.fieldNames, ofFields?, Json.text, ihl, ihr]
  | not e ih =>
    simp [toJson, Json.record, ofNode?, memberParts, ofMembers?, onlyMember?, Kind.ofJson?, Kind.ofName,
      Kind.fieldNames, ofFields?, Json.text, ih]
  | unknown =>
    simp [toJson, Json.record, ofNode?, memberParts, ofMembers?, onlyMember?, Kind.ofJson?, Kind.ofName,
      Kind.fieldNames, ofFields?, Json.text]

theorem ofJson?_toJson (e : TagExpr) : ofJson? e.toJson = some e := by
  rw [ofJson?, if_pos (isPlain_toJson e), ofNode?_toJson]

theorem toJson_ne_null (e : TagExpr) : e.toJson ≠ .null := by
  cases e <;> simp [toJson, Json.record]

/-- The document of an expression stands for that expression and no other one, and it is refused only
where more nodes than are read lie on one way from the root. -/
theorem ofText?_document (e : TagExpr) (style : Json.Layout) :
    (Json.ofTextWithin? Json.depthLimit (e.toJson.textIn style)).bind ofJson? =
        (if e.height ≤ 127 then some e else none) ∧
      ofText? (e.toJson.textIn style) = if e.height ≤ 127 then some (some e) else none := by
  have hread : Json.ofTextWithin? Json.depthLimit (e.toJson.textIn style) =
      if e.height ≤ 127 then some e.toJson else none := by
    have hself : Json.ofText? (e.toJson.textIn style) = some e.toJson := by
      apply Json.ofText?_textIn_self
      simp [numerals_toJson]
    rw [Json.ofTextWithin?_eq, hself, Option.filter_some, depth_toJson]
    simp only [decide_eq_true_eq]
    rfl
  have hoption : ∀ j, j ≠ .null → Json.asOption? ofJson? j = (ofJson? j).map some := by
    intro j hj
    cases j with
    | null => exact (hj rfl).elim
    | _ => rfl
  rw [ofText?, hread]
  by_cases h : e.height ≤ 127
  · simp [h, hoption _ e.toJson_ne_null, ofJson?_toJson]
  · simp [h]

end TagExpr

end SuitePlan
