import ContractIR.Ast.Basic
import ContractIR.Json.Reader

/-!
# Reading contracts from JSON

## Main definitions

* `ContractIR.SemanticType.ofJson`, `Expression.ofJson`, `Statement.ofJson`, `Contract.ofJson` —
  the nodes of the tree; the first argument is the depth to which the value may be nested.
* `ContractIR.readContracts` — the contracts that a text writes.
-/

set_option autoImplicit false

namespace ContractIR

/-- The depth to which arrays and objects may be nested. -/
def maxDepth : Nat := 127

/-- A stretch of source text. -/
def SourceRange.ofJson : Nat → Json → Read SourceRange
  | 0, _ => throw .invalid
  | _ + 1, j => do
    let f ← Fields.ofJson ["start", "length"] j
    return {
      start := ← f.required "start" Read.uint64
      length := ← f.optional "length" 0 Read.uint64 }

/-- The tags of types. -/
def SemanticType.tags : List String := ["integer", "rationalNumber", "bool", "address"]

/-- A type.  Types without parts take no fields. -/
def SemanticType.ofJson (inner : Bool) (depth : Nat) (j : Json) : Read SemanticType := do
  let v ← Variant.ofJson "kind" tags inner depth j
  match v.tag with
  | "integer" =>
    let f ← v.fields ["bits", "signed"]
    return .integer ⟨← f.required "bits" Read.uint16, ← f.required "signed" Read.bool⟩
  | "rationalNumber" =>
    let f ← v.fields ["numerator", "denominator"]
    return .rational (← f.required "numerator" Read.decimal)
      (← f.optional "denominator" 1 Read.decimal)
  | "bool" =>
    let _ ← v.fields []
    return .bool
  | "address" =>
    let _ ← v.fields []
    return .address
  | tag => throw (.unknownVariant tag)

/-- An operator: its symbol, alone or as the key of an object that holds nothing. -/
def BinaryOperator.ofJson (j : Json) : Read BinaryOperator := do
  let symbol ←
    match j with
    | .object [(lexeme, .null)] => Read.text (.string lexeme)
    | .object [(lexeme, .object [])] => Read.text (.string lexeme)
    | j => Read.text j
  match ofSymbol? symbol with
  | some o => return o
  | none => throw (.unknownVariant symbol)

/-- The tags of expressions. -/
def Expression.tags : List String := ["Literal", "Identifier", "BinaryOperation"]

/-- An expression, which always stands inside a statement. -/
def Expression.ofJson : Nat → Json → Read Expression
  | 0, _ => throw .invalid
  | depth + 1, j => do
    let v ← Variant.ofJson "nodeType" tags true (depth + 1) j
    match v.tag with
    | "Literal" =>
      let f ← v.fields ["value", "type", "src"]
      return .literal (← f.optional "value" "" Read.text)
        (← f.required "type" (SemanticType.ofJson true depth))
        (← f.optional "src" {} (SourceRange.ofJson depth))
    | "Identifier" =>
      let f ← v.fields ["name", "referencedDeclaration", "type", "src"]
      return .identifier (← f.optional "name" "" Read.text)
        (← f.required "referencedDeclaration" Read.uint64)
        (← f.required "type" (SemanticType.ofJson true depth))
        (← f.optional "src" {} (SourceRange.ofJson depth))
    | "BinaryOperation" =>
      let f ← v.fields ["operator", "leftExpression", "rightExpression", "type", "src"]
      return .binary (← f.required "operator" BinaryOperator.ofJson)
        (← f.required "leftExpression" (ofJson depth))
        (← f.required "rightExpression" (ofJson depth))
        (← f.required "type" (SemanticType.ofJson true depth))
        (← f.optional "src" {} (SourceRange.ofJson depth))
    | tag => throw (.unknownVariant tag)

/-- An expression, or `null` for none. -/
def Expression.optionOfJson (depth : Nat) : Json → Read (Option Expression)
  | .null => return none
  | j => do return some (← ofJson depth j)

/-- The tags of statements. -/
def Statement.tags : List String :=
  ["Return", "Block", "ExpressionStatement", "VariableDeclarationStatement", "IfStatement",
    "WhileStatement", "Break", "Continue"]

/-- A statement, which stands inside another one or not. -/
def Statement.ofJson : Bool → Nat → Json → Read Statement
  | _, 0, _ => throw .invalid
  | inner, depth + 1, j => do
    let v ← Variant.ofJson "nodeType" tags inner (depth + 1) j
    let src (f : Fields) : Read SourceRange := f.optional "src" {} (SourceRange.ofJson depth)
    match v.tag with
    | "Return" =>
      let f ← v.fields ["expression", "src"]
      return .ret (← f.optional "expression" none (Expression.optionOfJson depth)) (← src f)
    | "Block" =>
      let f ← v.fields ["statements", "src"]
      let items : Json → Read (List Statement) := fun
        | .array items =>
          match depth with
          | 0 => throw .invalid
          | below + 1 => items.mapM (ofJson true below)
        | _ => throw .invalid
      return .block (← f.optional "statements" [] items) (← src f)
    | "ExpressionStatement" =>
      let f ← v.fields ["expression", "src"]
      return .expression (← f.required "expression" (Expression.ofJson depth)) (← src f)
    | "VariableDeclarationStatement" =>
      return .variableDeclaration (← src (← v.fields ["src"]))
    | "IfStatement" => return .ifStatement (← src (← v.fields ["src"]))
    | "WhileStatement" => return .whileStatement (← src (← v.fields ["src"]))
    | "Break" => return .breakStatement (← src (← v.fields ["src"]))
    | "Continue" => return .continueStatement (← src (← v.fields ["src"]))
    | tag => throw (.unknownVariant tag)

/-- A parameter. -/
def Parameter.ofJson : Nat → Json → Read Parameter
  | 0, _ => throw .invalid
  | depth + 1, j => do
    let f ← Fields.ofJson ["declaration", "name", "type", "src"] j
    return {
      declaration := ← f.required "declaration" Read.uint64
      name := ← f.optional "name" "" Read.text
      ty := ← f.required "type" (SemanticType.ofJson false depth)
      src := ← f.optional "src" {} (SourceRange.ofJson depth) }

/-- A function. -/
def Function.ofJson : Nat → Json → Read Function
  | 0, _ => throw .invalid
  | depth + 1, j => do
    let f ← Fields.ofJson ["name", "parameters", "returnParameters", "body", "src"] j
    return {
      name := ← f.required "name" Read.text
      parameters := ← f.optional "parameters" [] (Read.list Parameter.ofJson depth)
      returns := ← f.optional "returnParameters" [] (Read.list Parameter.ofJson depth)
      body := ← f.optional "body" [] (Read.list (Statement.ofJson false) depth)
      src := ← f.optional "src" {} (SourceRange.ofJson depth) }

/-- A contract. -/
def Contract.ofJson : Nat → Json → Read Contract
  | 0, _ => throw .invalid
  | depth + 1, j => do
    let f ← Fields.ofJson ["name", "functions", "src"] j
    return {
      name := ← f.required "name" Read.text
      functions := ← f.optional "functions" [] (Read.list Function.ofJson depth)
      src := ← f.optional "src" {} (SourceRange.ofJson depth) }

/-- The contracts in a value. -/
def contractsOfJson (j : Json) : Read (List Contract) := Read.list Contract.ofJson maxDepth j

/-- The contracts that a text writes. -/
def readContracts (text : String) : Read (List Contract) :=
  match Json.parse? text with
  | some j => contractsOfJson j
  | none => throw .invalid

end ContractIR
