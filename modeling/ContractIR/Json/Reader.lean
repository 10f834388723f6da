import ContractIR.Json.Value

/-!
# Reading records from JSON

The rules by which records and variants are read.  A record is an object with named members, of
which the unknown ones are ignored, or an array of its fields in order, of which the last ones may
be missing if they have a default.  A variant is an object with a tag, or an array that starts with
the tag.  A tag is a name; inside another variant it may also be the place of the name among all
tags, counted from zero.

Arrays and objects may be nested to a fixed depth.  The value of an unknown member of a record is
passed over whatever it holds; a variant is taken in as a whole before it is read, and its unknown
members must make sense like the others.

## Main definitions

* `ContractIR.ReadError` — why a value is not what was asked for.
* `ContractIR.Fields` — the fields of a record, `required` and `optional` — one of them.
* `ContractIR.Variant` — the tag of a variant and its fields.
-/

set_option autoImplicit false

namespace ContractIR

/-- Why a value could not be read. -/
inductive ReadError where
  | missingField (name : String)
  | duplicateField (name : String)
  | unknownVariant (name : String)
  | notDecimal (text : String)
  | invalid
deriving DecidableEq, Inhabited

/-- The wording of an error. -/
def ReadError.message : ReadError → String
  | .missingField name => "missing field `" ++ name ++ "`"
  | .duplicateField name => "duplicate field `" ++ name ++ "`"
  | .unknownVariant name => "unknown variant `" ++ name ++ "`"
  | .notDecimal text => "invalid decimal integer '" ++ text ++ "'"
  | .invalid => "invalid"

/-- The outcome of reading. -/
abbrev Read := Except ReadError

namespace Read

/-! ## Plain values -/

/-- A text. -/
def text : Json → Read String
  | .string lexeme => (Json.unescape? lexeme).elim (throw .invalid) pure
  | _ => throw .invalid

/-- A truth value. -/
def bool : Json → Read Bool
  | .bool b => pure b
  | _ => throw .invalid

/-- A natural number below a bound. -/
def natBelow (bound : Nat) : Json → Read Nat
  | .number lexeme =>
    match (Json.numeral? lexeme).bind Json.Numeral.nat? with
    | some n => if n < bound then pure n else throw .invalid
    | none => throw .invalid
  | _ => throw .invalid

/-- A number of 16 bits. -/
def uint16 (j : Json) : Read UInt16 := do return UInt16.ofNat (← natBelow UInt16.size j)

/-- A number of 64 bits. -/
def uint64 (j : Json) : Read UInt64 := do return UInt64.ofNat (← natBelow UInt64.size j)

/-- An integer of any size, written as decimal text. -/
def decimal (j : Json) : Read Int := do
  let s ← text j
  match Text.readInt? s with
  | some n => return n
  | none => throw (.notDecimal s)

/-- A list, whose items may be nested `depth` deep if the list may be nested `depth + 1` deep. -/
def list {α : Type} (item : Nat → Json → Read α) : Nat → Json → Read (List α)
  | depth + 1, .array items => items.mapM (item depth)
  | _, _ => throw .invalid

end Read

/-! ## Records -/

/-- The fields of a record, by name. -/
structure Fields where
  members : List (String × Json)
  /-- Whether the fields were given by name, and not by place. -/
  named : Bool

namespace Fields

/-- Members with their keys as texts. -/
def keyed : List (String × Json) → Read (List (String × Json))
  | [] => return []
  | (lexeme, j) :: rest =>
    match Json.unescape? lexeme with
    | some key => do return (key, j) :: (← keyed rest)
    | none => throw .invalid

/-- The first of some names that has more than one member. -/
def repeated? (members : List (String × Json)) (names : List String) : Option String :=
  names.find? fun name => decide (1 < (members.filter fun e => e.1 == name).length)

/-- The fields of a record with the given names, from members whose keys are texts. -/
def ofMembers (names : List String) (members : List (String × Json)) : Read Fields :=
  match repeated? members names with
  | some name => throw (.duplicateField name)
  | none => return ⟨members, true⟩

/-- The fields of a record with the given names, in order. -/
def ofItems (names : List String) (items : List Json) : Read Fields :=
  if names.length < items.length then throw .invalid else return ⟨names.zip items, false⟩

/-- The fields of a record with the given names. -/
def ofJson (names : List String) : Json → Read Fields
  | .object members => do ofMembers names (← keyed members)
  | .array items => ofItems names items
  | _ => throw .invalid

/-- The value of a field. -/
def get? (f : Fields) (name : String) : Option Json :=
  (f.members.find? fun e => e.1 == name).map Prod.snd

/-- A field that must be there. -/
def required {α : Type} (f : Fields) (name : String) (read : Json → Read α) : Read α :=
  match f.get? name with
  | some j => read j
  | none => throw (if f.named then .missingField name else .invalid)

/-- A field with a default. -/
def optional {α : Type} (f : Fields) (name : String) (otherwise : α) (read : Json → Read α) :
    Read α :=
  match f.get? name with
  | some j => read j
  | none => return otherwise

end Fields

/-! ## Variants -/

/-- The tag of a variant, and what else was given. -/
structure Variant where
  tag : String
  /-- The members besides the tag, or the items behind it. -/
  rest : List (String × Json) ⊕ List Json

namespace Variant

/-- The tag that a value means: the name that it is, or inside another variant also the one of the
`tags` whose place it is. -/
def readTag (tags : List String) (inner : Bool) : Json → Read String
  | .number lexeme => do
    if !inner then throw .invalid
    return tags.getD (← Read.natBelow tags.length (.number lexeme)) ""
  | j => Read.text j

/-- The variant in a value that may be nested `depth` deep; `inner` says whether the value stands
inside another variant. -/
def ofJson (tagName : String) (tags : List String) (inner : Bool) (depth : Nat) (j : Json) :
    Read Variant := do
  if !j.isSettled depth then throw .invalid
  match j with
  | .object members =>
    let members ← Fields.keyed members
    match members.filter fun e => e.1 == tagName with
    | [] => throw (.missingField tagName)
    | [(_, tag)] =>
      return ⟨← readTag tags inner tag, .inl (members.filter fun e => e.1 != tagName)⟩
    | _ => throw (.duplicateField tagName)
  | .array [] => throw (.missingField tagName)
  | .array (tag :: items) => return ⟨← readTag tags inner tag, .inr items⟩
  | _ => throw .invalid

/-- The fields of a variant, which has the given ones. -/
def fields (v : Variant) (names : List String) : Read Fields :=
  match v.rest with
  | .inl members => Fields.ofMembers names members
  | .inr items => Fields.ofItems names items

end Variant

end ContractIR
