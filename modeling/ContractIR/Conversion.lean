import ContractIR.Transform

/-!
# Conversion

A target says which kinds of operations may stay in a module; patterns rewrite the others.  The
module is swept again and again until a whole sweep changes nothing.  What is illegal then is an
error, and so is a conversion that does not come to rest within a fixed number of sweeps.

## Main definitions

* `ContractIR.Conversion.Target` — the kinds that may stay.
* `ContractIR.Conversion.Pattern` — a named way to rewrite the operations of one kind.
* `ContractIR.Conversion.convert` — sweeps a module until it comes to rest.
* `ContractIR.Conversion.Stats` — the number of sweeps, and of rewrites by pattern.
-/

set_option autoImplicit false

namespace ContractIR.Conversion

/-! ## Targets -/

/-- The kinds of operations that may stay: those that are allowed, singly or with their dialect,
and not forbidden. -/
structure Target where
  dialects : List Dialect := []
  allowed : List OpKind := []
  forbidden : List OpKind := []
deriving DecidableEq, Inhabited

namespace Target

/-- Allows a dialect. -/
def allowDialect (t : Target) (d : Dialect) : Target := { t with dialects := d :: t.dialects }

/-- Allows a kind, even if it was forbidden. -/
def allow (t : Target) (k : OpKind) : Target :=
  { t with
    allowed := k :: t.allowed
    forbidden := t.forbidden.filter fun l => decide (l ≠ k) }

/-- Forbids a kind, even if it was allowed or its dialect is. -/
def forbid (t : Target) (k : OpKind) : Target :=
  { t with
    allowed := t.allowed.filter fun l => decide (l ≠ k)
    forbidden := k :: t.forbidden }

/-- Whether operations of a kind may stay. -/
def isLegal (t : Target) (k : OpKind) : Bool :=
  !t.forbidden.contains k && (t.allowed.contains k || t.dialects.contains k.dialect)

/-- The operations of the tree that may not stay. -/
def illegalOps (t : Target) (m : Module) : List OpId := m.walk.filter fun o => !t.isLegal (m.kind o)

end Target

/-! ## Patterns -/

/-- A way to rewrite the operations of one kind.  The answer says whether the operation was
rewritten; a pattern that answers `false` leaves the module as it is. -/
structure Pattern where
  name : String
  root : OpKind
  rewrite : OpId → Transform Bool

/-- The first pattern for a kind that rewrites an operation, by name. -/
def firstMatch (kind : OpKind) (id : OpId) : List Pattern → Transform (Option String)
  | [] => return none
  | p :: ps => do
    if p.root = kind then
      if ← p.rewrite id then return some p.name else firstMatch kind id ps
    else firstMatch kind id ps

/-! ## Sweeps -/

/-- What a conversion did. -/
structure Stats where
  sweeps : Nat := 0
  /-- The number of rewrites by pattern, in order of first use. -/
  rewrites : List (String × Nat) := []
deriving DecidableEq, Inhabited

namespace Stats

/-- Adds one to the entry of a name, which is put at the end if it is missing. -/
def bump (name : String) : List (String × Nat) → List (String × Nat)
  | [] => [(name, 1)]
  | (n, k) :: rest => if n = name then (n, k + 1) :: rest else (n, k) :: bump name rest

/-- Counts a rewrite. -/
def count (s : Stats) (name : String) : Stats := { s with rewrites := bump name s.rewrites }

/-- The number of rewrites. -/
def total (s : Stats) : Nat := s.rewrites.foldr (fun r n => r.2 + n) 0

end Stats

/-- Sweeps over some operations; the answer says whether one of them was rewritten.  Operations
that an earlier rewrite took out of the tree are passed over. -/
def sweep (target : Target) (patterns : List Pattern) :
    List OpId → Stats → Bool → Transform (Stats × Bool)
  | [], stats, changed => return (stats, changed)
  | id :: ids, stats, changed => do
    let m ← get
    if m.isAttached id && !target.isLegal (m.kind id) then
      match ← firstMatch (m.kind id) id patterns with
      | some name => sweep target patterns ids (stats.count name) true
      | none => sweep target patterns ids stats changed
    else sweep target patterns ids stats changed

/-- The greatest number of sweeps. -/
def maxSweeps : Nat := 32

/-- Sweeps over the whole module until a sweep changes nothing, at most `left` times. -/
def sweepUntilRest (target : Target) (patterns : List Pattern) : Nat → Stats → Transform Stats
  | 0, _ => throw (.ir (.conversionLimit maxSweeps))
  | left + 1, stats => do
    let (stats, changed) ←
      sweep target patterns (← get).walk { stats with sweeps := stats.sweeps + 1 } false
    if changed then sweepUntilRest target patterns left stats else return stats

/-- Rewrites a module until every operation may stay. -/
def convert (target : Target) (patterns : List Pattern) : Transform Stats := do
  let stats ← sweepUntilRest target patterns maxSweeps {}
  let m ← get
  match target.illegalOps m with
  | [] => return stats
  | left => throw (.ir (.illegalOps (left.map fun o => (m.kind o, (m.op o).location))))

end ContractIR.Conversion
