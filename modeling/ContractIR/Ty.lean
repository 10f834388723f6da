import ContractIR.Text.Join

/-!
# Types

Integers are signless: signedness belongs to the source language and is gone in the intermediate
representation.  Pointers are opaque and live in a numbered address space.

## Main definitions

* `ContractIR.Ty` — the types of values.
* `ContractIR.Signature` — the inputs and results of a function.
* `ContractIR.Ty.text`, `ContractIR.Signature.text` — their printed forms.
-/

set_option autoImplicit false

namespace ContractIR

open Text (commas)

/-- Width in bits of a machine word of the target. -/
def wordBits : Nat := 256

/-- The types of values. -/
inductive Ty where
  /-- An integer of the given width, without a sign. -/
  | int (bits : Nat)
  /-- An opaque pointer into an address space. -/
  | ptr (space : Nat)
  /-- An addressable cell that holds one element. -/
  | memref (elem : Ty)
  /-- A run of equal elements. -/
  | array (elem : Ty) (length : Nat)
  /-- A function from inputs to results. -/
  | func (inputs results : List Ty)
deriving Inhabited

/-- The inputs and results of a function. -/
structure Signature where
  inputs : List Ty
  results : List Ty
deriving Inhabited

/-- A signature as a type. -/
def Signature.toTy (s : Signature) : Ty := .func s.inputs s.results

namespace Ty

/-! ## Decidable equality -/

mutual

/-- Equality of types, as a test. -/
def same : Ty → Ty → Bool
  | .int a, .int b => decide (a = b)
  | .ptr a, .ptr b => decide (a = b)
  | .memref a, .memref b => same a b
  | .array a m, .array b n => same a b && decide (m = n)
  | .func is rs, .func js ss => sameAll is js && sameAll rs ss
  | _, _ => false

/-- Equality of lists of types, as a test. -/
def sameAll : List Ty → List Ty → Bool
  | [], [] => true
  | t :: ts, u :: us => same t u && sameAll ts us
  | _, _ => false

end

mutual

/-- The test accepts exactly equal types. -/
theorem same_iff : ∀ s t : Ty, same s t = true ↔ s = t
  | .int a, t => by cases t <;> simp [same]
  | .ptr a, t => by cases t <;> simp [same]
  | .memref a, t => by
    cases t <;> simp [same]
    exact same_iff a _
  | .array a m, t => by
    cases t <;> simp [same]
    intro _
    exact same_iff a _
  | .func is rs, t => by
    cases t <;> simp [same]
    rw [sameAll_iff is, sameAll_iff rs]

/-- The test accepts exactly equal lists of types. -/
theorem sameAll_iff : ∀ ss ts : List Ty, sameAll ss ts = true ↔ ss = ts
  | [], ts => by cases ts <;> simp [sameAll]
  | s :: ss, ts => by
    cases ts with
    | nil => simp [sameAll]
    | cons t ts => simp [sameAll, same_iff s t, sameAll_iff ss ts]

end

instance : DecidableEq Ty := fun s t => decidable_of_iff _ (same_iff s t)

/-! ## Parts of a type -/

/-- The type of truth values. -/
def i1 : Ty := .int 1

/-- The type of machine words. -/
def word : Ty := .int wordBits

/-- The width of an integer type. -/
def width? : Ty → Option Nat
  | .int bits => some bits
  | _ => none

/-- Whether the type is an integer type. -/
def isInt : Ty → Bool
  | .int _ => true
  | _ => false

/-- Whether the type is a pointer type. -/
def isPtr : Ty → Bool
  | .ptr _ => true
  | _ => false

/-- What a cell holds. -/
def element? : Ty → Option Ty
  | .memref elem => some elem
  | _ => none

/-- The inputs and results of a function type. -/
def signature? : Ty → Option Signature
  | .func inputs results => some ⟨inputs, results⟩
  | _ => none

end Ty

instance : DecidableEq Signature := fun s t =>
  decidable_of_iff (s.inputs = t.inputs ∧ s.results = t.results) (by cases s; cases t; simp)

/-! ## Printed forms -/

/-- A function type from the printed forms of its parts: a single result stands bare, any other
number of results stands in parentheses. -/
def Signature.arrow (inputs : List String) : List String → String
  | [result] => "(" ++ commas inputs ++ ") -> " ++ result
  | results => "(" ++ commas inputs ++ ") -> (" ++ commas results ++ ")"

mutual

/-- The printed form of a type. -/
def Ty.text : Ty → String
  | .int bits => "i" ++ toString bits
  | .ptr 0 => "!llvm.ptr"
  | .ptr space => "!llvm.ptr<" ++ toString space ++ ">"
  | .memref elem => "memref<" ++ elem.text ++ ">"
  | .array elem length => "!llvm.array<" ++ toString length ++ " x " ++ elem.text ++ ">"
  | .func inputs results => Signature.arrow (Ty.texts inputs) (Ty.texts results)

/-- The printed forms of some types. -/
def Ty.texts : List Ty → List String
  | [] => []
  | t :: ts => t.text :: Ty.texts ts

end

/-- The printed form of a signature. -/
def Signature.text (s : Signature) : String := s.toTy.text

end ContractIR
