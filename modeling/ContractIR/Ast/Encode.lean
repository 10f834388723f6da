import ContractIR.Ast.Basic
import ContractIR.Json.Value

/-!
# Writing contracts as JSON

Every field is written, also those that have their default.

## Main definitions

* `ContractIR.SemanticType.toJson`, `Expression.toJson`, `Statement.toJson`, `Contract.toJson` —
  the nodes of the tree.
* `ContractIR.writeContracts` — contracts as a text.
-/

set_option autoImplicit false

namespace ContractIR

/-- A number of 64 bits as a value. -/
def Json.ofUInt64 (n : UInt64) : Json := .ofNat n.toNat

/-- A stretch of source text as a value. -/
def SourceRange.toJson (r : SourceRange) : Json :=
  .ofMembers [("start", .ofUInt64 r.start), ("length", .ofUInt64 r.length)]

/-- A type as a value. -/
def SemanticType.toJson : SemanticType → Json
  | .integer ty =>
    .ofMembers
      [("kind", .ofText "integer"), ("bits", .ofNat ty.bits.toNat), ("signed", .bool ty.signed)]
  | .rational numerator denominator =>
    .ofMembers
      [("kind", .ofText "rationalNumber"), ("numerator", .ofText (toString numerator)),
        ("denominator", .ofText (toString denominator))]
  | .bool => .ofMembers [("kind", .ofText "bool")]
  | .address => .ofMembers [("kind", .ofText "address")]

/-- An expression as a value. -/
def Expression.toJson : Expression → Json
  | .literal value ty src =>
    .ofMembers
      [("nodeType", .ofText "Literal"), ("value", .ofText value), ("type", ty.toJson),
        ("src", src.toJson)]
  | .identifier name declaration ty src =>
    .ofMembers
      [("nodeType", .ofText "Identifier"), ("name", .ofText name),
        ("referencedDeclaration", .ofUInt64 declaration), ("type", ty.toJson),
        ("src", src.toJson)]
  | .binary operator left right ty src =>
    .ofMembers
      [("nodeType", .ofText "BinaryOperation"), ("operator", .ofText operator.symbol),
        ("leftExpression", left.toJson), ("rightExpression", right.toJson), ("type", ty.toJson),
        ("src", src.toJson)]

mutual

/-- A statement as a value. -/
def Statement.toJson : Statement → Json
  | .ret e src =>
    .ofMembers
      [("nodeType", .ofText "Return"), ("expression", (e.map Expression.toJson).getD .null),
        ("src", src.toJson)]
  | .block statements src =>
    .ofMembers
      [("nodeType", .ofText "Block"), ("statements", .array (Statement.toJsons statements)),
        ("src", src.toJson)]
  | .expression e src =>
    .ofMembers
      [("nodeType", .ofText "ExpressionStatement"), ("expression", e.toJson),
        ("src", src.toJson)]
  | .variableDeclaration src =>
    .ofMembers [("nodeType", .ofText "VariableDeclarationStatement"), ("src", src.toJson)]
  | .ifStatement src => .ofMembers [("nodeType", .ofText "IfStatement"), ("src", src.toJson)]
  | .whileStatement src => .ofMembers [("nodeType", .ofText "WhileStatement"), ("src", src.toJson)]
  | .breakStatement src => .ofMembers [("nodeType", .ofText "Break"), ("src", src.toJson)]
  | .continueStatement src => .ofMembers [("nodeType", .ofText "Continue"), ("src", src.toJson)]

/-- Statements as values. -/
def Statement.toJsons : List Statement → List Json
  | [] => []
  | s :: ss => s.toJson :: Statement.toJsons ss

end

/-- A parameter as a value. -/
def Parameter.toJson (p : Parameter) : Json :=
  .ofMembers
    [("declaration", .ofUInt64 p.declaration), ("name", .ofText p.name), ("type", p.ty.toJson),
      ("src", p.src.toJson)]

/-- A function as a value. -/
def Function.toJson (f : Function) : Json :=
  .ofMembers
    [("name", .ofText f.name), ("parameters", .array (f.parameters.map Parameter.toJson)),
      ("returnParameters", .array (f.returns.map Parameter.toJson)),
      ("body", .array (f.body.map Statement.toJson)), ("src", f.src.toJson)]

/-- A contract as a value. -/
def Contract.toJson (c : Contract) : Json :=
  .ofMembers
    [("name", .ofText c.name), ("functions", .array (c.functions.map Function.toJson)),
      ("src", c.src.toJson)]

/-- Contracts as a value. -/
def contractsToJson (contracts : List Contract) : Json := .array (contracts.map Contract.toJson)

/-- Contracts as a text. -/
def writeContracts (contracts : List Contract) : String := (contractsToJson contracts).render

end ContractIR
