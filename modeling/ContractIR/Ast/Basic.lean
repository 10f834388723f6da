import ContractIR.Ast.SemanticType

/-!
# Checked contracts

What the front end hands over: contracts whose names are resolved and whose expressions have their
types.  Every node carries the stretch of source text that it was read from.

## Main definitions

* `ContractIR.SourceRange`, `Parameter` — stretches of text, and parameters.
* `ContractIR.Expression`, `Statement`, `Function`, `Contract` — the tree.
-/

set_option autoImplicit false

namespace ContractIR

/-- A stretch of source text, in bytes. -/
structure SourceRange where
  start : UInt64 := 0
  length : UInt64 := 0
deriving DecidableEq, Inhabited

/-- The operators that join two expressions. -/
inductive BinaryOperator where
  | add | sub | mul | div | mod | exp | bitAnd | bitOr | bitXor | shl | shr | lt | gt | le | ge
  | eq | ne | and | or
deriving DecidableEq, Inhabited

namespace BinaryOperator

/-- Every operator. -/
def all : List BinaryOperator :=
  [.add, .sub, .mul, .div, .mod, .exp, .bitAnd, .bitOr, .bitXor, .shl, .shr, .lt, .gt, .le, .ge,
    .eq, .ne, .and, .or]

/-- The symbol of an operator. -/
def symbol : BinaryOperator → String
  | .add => "+"
  | .sub => "-"
  | .mul => "*"
  | .div => "/"
  | .mod => "%"
  | .exp => "**"
  | .bitAnd => "&"
  | .bitOr => "|"
  | .bitXor => "^"
  | .shl => "<<"
  | .shr => ">>"
  | .lt => "<"
  | .gt => ">"
  | .le => "<="
  | .ge => ">="
  | .eq => "=="
  | .ne => "!="
  | .and => "&&"
  | .or => "||"

/-- The operator of a symbol. -/
def ofSymbol? (s : String) : Option BinaryOperator := all.find? fun o => o.symbol == s

/-- Every operator is found under its symbol. -/
theorem ofSymbol?_symbol (o : BinaryOperator) : ofSymbol? o.symbol = some o := by
  cases o <;> rfl

end BinaryOperator

/-- An expression. -/
inductive Expression where
  | literal (value : String) (ty : SemanticType) (src : SourceRange)
  | identifier (name : String) (declaration : UInt64) (ty : SemanticType) (src : SourceRange)
  | binary (operator : BinaryOperator) (left right : Expression) (ty : SemanticType)
    (src : SourceRange)
deriving DecidableEq, Inhabited

namespace Expression

/-- The type of an expression. -/
def ty : Expression → SemanticType
  | .literal _ ty _ | .identifier _ _ ty _ | .binary _ _ _ ty _ => ty

/-- The text of an expression. -/
def src : Expression → SourceRange
  | .literal _ _ src | .identifier _ _ _ src | .binary _ _ _ _ src => src

end Expression

/-- A statement.  Only returns are compiled; of the others it is enough to know where they are. -/
inductive Statement where
  | ret (expression : Option Expression) (src : SourceRange)
  | block (statements : List Statement) (src : SourceRange)
  | expression (expression : Expression) (src : SourceRange)
  | variableDeclaration (src : SourceRange)
  | ifStatement (src : SourceRange)
  | whileStatement (src : SourceRange)
  | breakStatement (src : SourceRange)
  | continueStatement (src : SourceRange)
deriving Inhabited

namespace Statement

/-- What messages call a statement. -/
def kindName : Statement → String
  | .ret .. => "return"
  | .block .. => "block"
  | .expression .. => "expression statement"
  | .variableDeclaration .. => "variable declaration"
  | .ifStatement .. => "if statement"
  | .whileStatement .. => "while statement"
  | .breakStatement .. => "break"
  | .continueStatement .. => "continue"

/-- The text of a statement. -/
def src : Statement → SourceRange
  | .ret _ src | .block _ src | .expression _ src | .variableDeclaration src | .ifStatement src
  | .whileStatement src | .breakStatement src | .continueStatement src => src

/-! ## Decidable equality -/

mutual

/-- Equality of statements, as a test. -/
def same : Statement → Statement → Bool
  | .ret e src, .ret f place => decide (e = f) && decide (src = place)
  | .block ss src, .block ts place => sameAll ss ts && decide (src = place)
  | .expression e src, .expression f place => decide (e = f) && decide (src = place)
  | .variableDeclaration src, .variableDeclaration place => decide (src = place)
  | .ifStatement src, .ifStatement place => decide (src = place)
  | .whileStatement src, .whileStatement place => decide (src = place)
  | .breakStatement src, .breakStatement place => decide (src = place)
  | .continueStatement src, .continueStatement place => decide (src = place)
  | _, _ => false

/-- Equality of lists of statements, as a test. -/
def sameAll : List Statement → List Statement → Bool
  | [], [] => true
  | s :: ss, t :: ts => same s t && sameAll ss ts
  | _, _ => false

end

mutual

/-- The test accepts exactly equal statements. -/
theorem same_iff : ∀ s t : Statement, same s t = true ↔ s = t
  | .block ss src, t => by cases t <;> simp [same, sameAll_iff ss]
  | .ret .., t | .expression .., t | .variableDeclaration _, t | .ifStatement _, t
  | .whileStatement _, t | .breakStatement _, t | .continueStatement _, t => by
    cases t <;> simp [same]

/-- The test accepts exactly equal lists of statements. -/
theorem sameAll_iff : ∀ ss ts : List Statement, sameAll ss ts = true ↔ ss = ts
  | [], ts => by cases ts <;> simp [sameAll]
  | s :: ss, ts => by
    cases ts with
    | nil => simp [sameAll]
    | cons t ts => simp [sameAll, same_iff s t, sameAll_iff ss ts]

end

end Statement

instance : DecidableEq Statement := fun s t => decidable_of_iff _ (Statement.same_iff s t)

/-- A parameter or a returned value of a function. -/
structure Parameter where
  declaration : UInt64
  name : String := ""
  ty : SemanticType
  src : SourceRange := {}
deriving DecidableEq, Inhabited

/-- A function. -/
structure Function where
  name : String
  parameters : List Parameter := []
  returns : List Parameter := []
  body : List Statement := []
  src : SourceRange := {}
deriving DecidableEq, Inhabited

/-- A contract. -/
structure Contract where
  name : String
  functions : List Function := []
  src : SourceRange := {}
deriving DecidableEq, Inhabited

end ContractIR
