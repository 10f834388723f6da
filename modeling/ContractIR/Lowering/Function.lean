import ContractIR.Lowering.Cast
import ContractIR.Lowering.Cells

/-!
# Lowering functions

A function becomes a `func.func`.  On entry every parameter is stored in a cell of its own; reading
a variable loads its cell.  Operands of arithmetic are converted to the type of the operation, and
a returned value to the type of the function, right after they are computed.

## Main definitions

* `ContractIR.lowerExpression` — the value of an expression, in a given type.
* `ContractIR.lowerStatements` — the statements of a body.
* `ContractIR.lowerFunction` — a whole function.
-/

set_option autoImplicit false

namespace ContractIR

/-! ## Locations -/

/-- The location of a stretch of text. -/
def locate (source : Source) (range : SourceRange) : Except CompileError Location :=
  (source.location range.start.toNat).mapError .source

/-- Gives the location of a stretch of text to the operations created next. -/
def moveTo (source : Source) (range : SourceRange) : Lower Location := do
  let location ← Transform.ofExcept (locate source range)
  Build.setLocation location
  return location

/-- Fails at the builder's location because of something that is not supported. -/
def unsupportedHere {α : Type} (what : Unsupported) : Lower α := do
  Transform.unsupported what (← get).location

/-! ## Expressions -/

/-- The type in which a literal is written: an integer type that is expected and holds it, else
its own. -/
def literalTarget (ty expected : SemanticType) : SemanticType :=
  match expected, ty.wholeValue? with
  | .integer t, some v => if t.holds v then expected else ty
  | _, _ => ty

/-- Writes a literal of type `ty` as a constant of type `target`. -/
def lowerLiteral (text : String) (ty target : SemanticType) : Lower ValueId := do
  let lowered ← Transform.ofExcept (lowerType target (← get).location)
  match ty.wholeValue? with
  | some v => Build.constant v lowered
  | none => unsupportedHere (.literal text ty)

/-- Converts the value of an expression to the type that is expected, if it has another one. -/
def convertTo (source : Source) (range : SourceRange) (v : ValueId)
    (own expected : SemanticType) : Lower ValueId := do
  if expected = own then return v
  else
    let _ ← moveTo source range
    cast v own expected

/-- The value of an expression, converted to the type that is expected. -/
def lowerExpression (source : Source) (cells : Cells) :
    Expression → SemanticType → Lower ValueId
  | .literal text ty src, expected => do
    let _ ← moveTo source src
    let target := literalTarget ty expected
    let v ← lowerLiteral text ty target
    convertTo source src v target expected
  | .identifier name declaration _ src, expected => do
    let _ ← moveTo source src
    match cells.lookup? declaration with
    | none => unsupportedHere (.notParameter name)
    | some cell =>
      let v ← Build.loadCell cell.address
      convertTo source src v cell.ty expected
  | .binary operator left right ty src, expected => do
    match operator with
    | .add | .mul =>
      let lhs ← lowerExpression source cells left ty
      let rhs ← lowerExpression source cells right ty
      let _ ← moveTo source src
      let v ← if operator = .add then Build.addi lhs rhs else Build.muli lhs rhs
      convertTo source src v ty expected
    | _ =>
      let _ ← moveTo source src
      unsupportedHere (.operator operator)

/-! ## Parameters -/

/-- The lowered type and the location of a parameter. -/
def lowerParameter (source : Source) (p : Parameter) : Except CompileError (Ty × Location) := do
  let location ← locate source p.src
  return (← lowerType p.ty location, location)

/-- Stores the arguments of a function in cells of their own. -/
def spill : List (Parameter × ValueId × Ty × Location) → Cells → Lower Cells
  | [], cells => return cells
  | (p, arg, ty, location) :: rest, cells => do
    Build.setLocation location
    let cell ← Build.allocaCell ty
    let _ ← Build.storeCell arg cell
    spill rest (cells.bind p.declaration ⟨cell, p.ty⟩)

/-! ## Statements -/

/-- Lowers a return statement of a function that returns a value of type `returns`, or none. -/
def lowerReturn (source : Source) (cells : Cells) (name : String) (returns : Option SemanticType)
    (expression : Option Expression) (src : SourceRange) : Lower Unit := do
  match returns, expression with
  | none, none => return ()
  | none, some _ => unsupportedHere (.returnsValue name)
  | some _, none => unsupportedHere (.returnsNothing name)
  | some ty, some e =>
    let v ← lowerExpression source cells e ty
    let _ ← moveTo source src
    let _ ← Build.funcReturn [v]

/-- Lowers the statements of a body; the answer says whether one of them returned, as
`returned` says of those before. -/
def lowerStatements (source : Source) (cells : Cells) (name : String)
    (returns : Option SemanticType) : Bool → List Statement → Lower Bool
  | returned, [] => return returned
  | returned, s :: rest => do
    let _ ← moveTo source s.src
    if returned then unsupportedHere (.afterReturn s.kindName name)
    match s with
    | .ret expression src =>
      lowerReturn source cells name returns expression src
      lowerStatements source cells name returns true rest
    | _ => unsupportedHere (.statement s.kindName name)

/-! ## Functions -/

/-- Lowers a function at the builder's place. -/
def lowerFunction (source : Source) (f : Function) : Lower OpId := do
  let location ← moveTo source f.src
  let inputs ← Transform.ofExcept (f.parameters.mapM (lowerParameter source))
  let results ← Transform.ofExcept (f.returns.mapM (lowerParameter source))
  if 1 < f.returns.length then unsupportedHere (.manyReturns f.name f.returns.length)
  let returns := f.returns.head?.map Parameter.ty
  Build.setLocation location
  let (function, entry) ← Build.func f.name ⟨inputs.map Prod.fst, results.map Prod.fst⟩
  Build.toEnd entry
  let args ← Build.argsOf entry
  let cells ← spill (f.parameters.zip (args.zip inputs)) {}
  let returned ← lowerStatements source cells f.name returns false f.body
  match returns with
  | none =>
    let _ ← moveTo source f.src
    let _ ← Build.funcReturn []
    return function
  | some _ =>
    if returned then return function
    else
      let _ ← moveTo source f.src
      unsupportedHere (.missingReturn f.name)

end ContractIR
