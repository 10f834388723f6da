import ContractIR.Module.Traversal
import ContractIR.Print.Numbering
import ContractIR.Print.Page
import ContractIR.Text.Paint

/-!
# Printed modules

Every operation is printed in one generic form: results, quoted kind, operands, successors,
regions, attributes, the types of operands and results, and the location if it is asked for.
Values and blocks are numbered anew inside every operation that is isolated from above.

## Main definitions

* `ContractIR.Print.opLines`, `regionLines` — the lines of an operation and of a region.
* `ContractIR.Module.emit` — writes a module to a page.
* `ContractIR.Module.print`, `printPlain` — a module as text.
-/

set_option autoImplicit false

namespace ContractIR

namespace Print

/-- The quoted kind of an operation, bold and cyan where colors are on. -/
def kindText (colors : Bool) (kind : OpKind) : String :=
  if colors then "\x22" ++ Text.styleCode "1;36" ++ kind.name ++ Text.reset ++ "\x22"
  else "\x22" ++ kind.name ++ "\x22"

/-- The types of an operation's operands and results. -/
def typesText (m : Module) (id : OpId) : String :=
  Signature.text ⟨m.typesOf (m.op id).operands, m.typesOf (m.op id).results⟩

/-- A location behind a blank, where locations are asked for. -/
def locationText (style : Style) (location : Location) : String :=
  if style.locations then " " ++ location.text else ""

/-- What follows the operands and regions of an operation. -/
def trailer (style : Style) (m : Module) (id : OpId) : String :=
  let attrs :=
    match (m.op id).attrs.text? with
    | some dict => " " ++ dict
    | none => ""
  attrs ++ " : " ++ typesText m id ++ locationText style (m.op id).location

/-- The results of an operation and the sign that sets them, or nothing without results. -/
def resultsText (results : List ValueId) : StateM Numbering String := do
  if results.isEmpty then return "" else return (← valuesText results) ++ " = "

/-- The labels of the successors of an operation, or nothing without successors. -/
def successorsText (successors : List BlockId) : StateM Numbering String := do
  if successors.isEmpty then return ""
  else return "[" ++ Text.commas (← successors.mapM blockText) ++ "]"

/-- What precedes the regions of an operation: results, kind, operands and successors, which are
numbered in this order. -/
def headText (colors : Bool) (m : Module) (id : OpId) : StateM Numbering String := do
  let o := m.op id
  let results ← resultsText o.results
  let operands ← valuesText o.operands
  let successors ← successorsText o.successors
  return results ++ kindText colors o.kind ++ "(" ++ operands ++ ")" ++ successors

/-- Runs a step with a numbering of its own and forgets that numbering. -/
def inScope {α : Type} (isolated : Bool) (step : StateM Numbering α) : StateM Numbering α :=
  fun n => if isolated then ((step {}).1, n) else step n

/-- The lines of some regions, with a dividing line between neighbours. -/
def regionsLines (level : Nat) (regions : List (List PageLine)) : List PageLine :=
  match regions with
  | [] => []
  | first :: rest => first ++ rest.flatMap fun r => ⟨level, "\x7d, \x7b"⟩ :: r

/-- The lines of an operation at a level; `printRegion` gives the lines of a region. -/
def opLines (colors : Bool) (style : Style) (m : Module)
    (printRegion : RegionId → StateM Numbering (List PageLine)) (level : Nat) (id : OpId) :
    StateM Numbering (List PageLine) := do
  let head ← headText colors m id
  let regions := (m.op id).regions
  if regions.isEmpty then return [⟨level, head ++ trailer style m id⟩]
  else
    let inner ← inScope (m.kind id).isIsolated (regions.mapM printRegion)
    return ⟨level, head ++ " (\x7b"⟩ :: regionsLines level inner ++
      [⟨level, "\x7d)" ++ trailer style m id⟩]

/-- The header of a block at a level.  The first block of a region shows it only if it takes
arguments or headers are asked for. -/
def headerLines (style : Style) (m : Module) (level : Nat) (first : Bool) (b : BlockId) :
    StateM Numbering (List PageLine) := do
  if first && (m.block b).args.isEmpty && !style.entryHeaders then return []
  else return [⟨level, ← blockHeader m b⟩]

/-- The lines of a block at a level: its header, then its operations one level in. -/
def blockLines (style : Style) (m : Module)
    (printOp : OpId → StateM Numbering (List PageLine)) (level : Nat) (first : Bool)
    (b : BlockId) : StateM Numbering (List PageLine) := do
  let header ← headerLines style m level first b
  let ops ← (m.block b).ops.mapM printOp
  return header ++ ops.flatten

/-- The lines of a region at a level, with operations nested up to a depth.  All its blocks are
numbered before the first one is printed. -/
def regionLines (colors : Bool) (style : Style) (m : Module) :
    Nat → Nat → RegionId → StateM Numbering (List PageLine)
  | 0, _, _ => return []
  | depth + 1, level, r => do
    let blocks := (m.region r).blocks
    let _ ← blocks.mapM Numbering.block
    let printOp := opLines colors style m (regionLines colors style m depth (level + 1)) (level + 1)
    let lines ← (blocks.mapIdx fun i b => (i, b)).mapM fun p =>
      blockLines style m printOp level (p.1 == 0) p.2
    return lines.flatten

/-- The lines of the operations in the body's first block. -/
def topLevelLines (colors : Bool) (style : Style) (m : Module) (level : Nat) : List PageLine :=
  let printOp := opLines colors style m (regionLines colors style m m.depthBound level) level
  ((m.topLevel.mapM printOp).run {}).run.1.flatten

end Print

namespace Module

open Print

/-- Writes a module to a page, at the page's level and in its colors. -/
def emit {ε : Type} (m : Module) (style : Style) : EStateM ε Page Unit :=
  Page.block "module" (locationText style m.location) do
    let p ← get
    set (p.append (topLevelLines p.colors style m p.level))

/-- The page that a module leaves on an empty one. -/
def emitOn (m : Module) (style : Style) (page : Page) : Page :=
  match (m.emit style : EStateM Empty Page Unit).run page with
  | .ok _ p => p
  | .error _ p => p

/-- A module as text. -/
def print (m : Module) (style : Style) : String := (m.emitOn style (Page.ofStyle style)).text

/-- A module as text without colors and with two blanks for a level, whatever the style says. -/
def printPlain (m : Module) (style : Style) : String := (m.emitOn style {}).text

end Module

end ContractIR
