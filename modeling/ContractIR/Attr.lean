import ContractIR.Ty
import ContractIR.Text.Escape

/-!
# Attributes

Operations carry named constants: numbers, strings, symbol references, types.  A dictionary keeps
its entries in the order in which their names were first set.

## Main definitions

* `ContractIR.Attr` — attribute values, `ContractIR.Attr.text` — their printed form.
* `ContractIR.AttrDict` — ordered dictionaries of attributes.
* `ContractIR.Predicate` — the integer comparisons.
-/

set_option autoImplicit false

namespace ContractIR

/-- An attribute value. -/
inductive Attr where
  /-- An integer of a given type. -/
  | int (value : Int) (ty : Ty)
  | str (text : String)
  | bool (value : Bool)
  /-- A reference to a symbol. -/
  | symbol (name : String)
  | type (ty : Ty)
  /-- An aggregate with every element zero. -/
  | zero (ty : Ty)
deriving DecidableEq, Inhabited

namespace Attr

/-- The text of a string attribute. -/
def str? : Attr → Option String
  | .str s => some s
  | _ => none

/-- The name behind a symbol reference. -/
def symbol? : Attr → Option String
  | .symbol s => some s
  | _ => none

/-- The type of a type attribute. -/
def type? : Attr → Option Ty
  | .type ty => some ty
  | _ => none

/-- The truth value of a boolean attribute. -/
def bool? : Attr → Option Bool
  | .bool b => some b
  | _ => none

/-- The value and type of an integer attribute. -/
def int? : Attr → Option (Int × Ty)
  | .int value ty => some (value, ty)
  | _ => none

/-- The printed form of an attribute. -/
def text : Attr → String
  | .int value ty => toString value ++ " : " ++ ty.text
  | .str s => Text.quoted s
  | .bool true => "true"
  | .bool false => "false"
  | .symbol s => "@" ++ s
  | .type ty => ty.text
  | .zero ty => "dense<0> : " ++ ty.text

end Attr

/-! ## Dictionaries -/

/-- Named attributes, in the order in which their names were first set. -/
structure AttrDict where
  entries : List (String × Attr) := []
deriving DecidableEq, Inhabited

namespace AttrDict

/-- The dictionary without entries. -/
def empty : AttrDict := {}

/-- Sets `name` in a list of entries: a name that is there keeps its place. -/
def setEntry (name : String) (value : Attr) : List (String × Attr) → List (String × Attr)
  | [] => [(name, value)]
  | (n, v) :: rest => if n = name then (n, value) :: rest else (n, v) :: setEntry name value rest

/-- Sets `name` to `value`. -/
def set (d : AttrDict) (name : String) (value : Attr) : AttrDict :=
  ⟨setEntry name value d.entries⟩

/-- The value of `name` in a list of entries. -/
def getEntry? (name : String) : List (String × Attr) → Option Attr
  | [] => none
  | (n, v) :: rest => if n = name then some v else getEntry? name rest

/-- The value of `name`. -/
def get? (d : AttrDict) (name : String) : Option Attr := getEntry? name d.entries

/-- Sets the names of a list one after the other. -/
def ofList (entries : List (String × Attr)) : AttrDict :=
  entries.foldl (fun d e => d.set e.1 e.2) empty

/-- The printed form: entries in order between braces, and nothing at all without entries. -/
def text? (d : AttrDict) : Option String :=
  if d.entries.isEmpty then none
  else some ("\x7b" ++ Text.commas (d.entries.map fun e => e.1 ++ " = " ++ e.2.text) ++ "\x7d")

/-- A name reads back what was set last. -/
theorem get?_set (d : AttrDict) (name other : String) (value : Attr) :
    (d.set name value).get? other = if other = name then some value else d.get? other := by
  obtain ⟨entries⟩ := d
  simp only [get?, set]
  induction entries with
  | nil => simp [setEntry, getEntry?, eq_comm]
  | cons e rest ih =>
    obtain ⟨n, v⟩ := e
    by_cases hn : n = name
    · subst hn
      rcases Decidable.em (n = other) with rfl | ho
      · simp [setEntry, getEntry?]
      · simp [setEntry, getEntry?, ho, Ne.symm ho]
    · by_cases ho : n = other
      · subst ho
        simp [setEntry, getEntry?, hn]
      · simp [setEntry, getEntry?, hn, ho, ih]

end AttrDict

/-! ## Names of the attributes that operations give a meaning to -/

namespace AttrName

/-- The name that a symbol declares. -/
def symName : String := "sym_name"

/-- The type of a function. -/
def functionType : String := "function_type"

/-- The function that a call names. -/
def callee : String := "callee"

/-- The value of a constant or of a global. -/
def value : String := "value"

/-- The comparison that is made. -/
def predicate : String := "predicate"

/-- The type of what an address points at. -/
def elemType : String := "elem_type"

/-- The type of a global. -/
def globalType : String := "global_type"

/-- The global whose address is taken. -/
def globalName : String := "global_name"

/-- Who may see a symbol. -/
def linkage : String := "linkage"

/-- Whether a function belongs to the code that runs after deployment. -/
def isRuntime : String := "is_runtime"

end AttrName

/-! ## Comparisons -/

/-- The integer comparisons; `s` compares as signed, `u` as unsigned numbers. -/
inductive Predicate where
  | eq | ne | slt | sle | sgt | sge | ult | ule | ugt | uge
deriving DecidableEq, Inhabited

namespace Predicate

/-- Every comparison. -/
def all : List Predicate := [.eq, .ne, .slt, .sle, .sgt, .sge, .ult, .ule, .ugt, .uge]

/-- The name of a comparison. -/
def name : Predicate → String
  | .eq => "eq"
  | .ne => "ne"
  | .slt => "slt"
  | .sle => "sle"
  | .sgt => "sgt"
  | .sge => "sge"
  | .ult => "ult"
  | .ule => "ule"
  | .ugt => "ugt"
  | .uge => "uge"

/-- The comparison of a name. -/
def ofName? (s : String) : Option Predicate := all.find? fun p => p.name == s

/-- A comparison as an attribute. -/
def toAttr (p : Predicate) : Attr := .str p.name

/-- Every comparison is found under its name. -/
theorem ofName?_name (p : Predicate) : ofName? p.name = some p := by
  cases p <;> rfl

end Predicate

end ContractIR
