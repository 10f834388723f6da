import ContractIR.Json.Reader
import ContractIR.Proofs.Json.Rendering
import ContractIR.Proofs.Outcome

/-!
# Records and variants from JSON

What the reading of records and variants gives when the value was made from data, with every field
under its own name, and what must have been there when it gives something at all.

## Main results

* `ContractIR.Fields.ofJson_ofMembers`, `ContractIR.Variant.ofJson_ofMembers` — records and
  variants that are made from data have the fields that they were made from.
* `ContractIR.Fields.required_eq_ok`, `ContractIR.Fields.optional_eq_ok` — where the value of a
  field comes from.
* `ContractIR.Variant.pos_of_ofJson` — a variant takes a level of depth.
-/

set_option autoImplicit false

namespace ContractIR

open Outcome

/-! ## Plain values -/

namespace Read

/-- A text is read back. -/
@[simp] theorem text_ofText (s : String) : text (.ofText s) = .ok s := by
  simp only [text, Json.ofText, Json.unescape?_escaped, Option.elim_some]
  rfl

/-- A truth value is read back. -/
@[simp] theorem bool_bool (b : Bool) : bool (.bool b) = .ok b := rfl

/-- A natural number below a bound is read as that number. -/
theorem natBelow_ofNat {bound n : Nat} (h : n < bound) : natBelow bound (.ofNat n) = .ok n := by
  simp only [natBelow, Json.ofNat, Json.numeral?_toString, Option.bind_some, Json.Numeral.nat?,
    Bool.false_eq_true, if_false, Json.digitsValue_toDigits, h, if_true]
  rfl

/-- A number of 16 bits is read back. -/
@[simp] theorem uint16_ofNat (n : UInt16) : uint16 (.ofNat n.toNat) = .ok n := by
  rw [uint16, natBelow_ofNat n.toNat_lt, ok_bind, UInt16.ofNat_toNat]
  rfl

/-- A number of 64 bits is read back. -/
@[simp] theorem uint64_ofNat (n : UInt64) : uint64 (.ofNat n.toNat) = .ok n := by
  rw [uint64, natBelow_ofNat n.toNat_lt, ok_bind, UInt64.ofNat_toNat]
  rfl

/-- A number that was written as a text is read back. -/
@[simp] theorem decimal_ofText (n : Int) : decimal (.ofText n.repr) = .ok n := by
  have hread : Text.readInt? n.repr = some n := Text.readInt?_toString n
  rw [decimal, text_ofText, ok_bind, hread]
  rfl

variable {α : Type} {item : Nat → Json → Read α}

/-- A list takes a level of depth. -/
theorem list_eq_ok {depth : Nat} {j : Json} {xs : List α} (h : list item depth j = .ok xs) :
    ∃ items, j = .array items ∧ 0 < depth ∧ List.Forall₂ (fun j x => item (depth - 1) j = .ok x)
      items xs := by
  cases depth with
  | zero => cases h
  | succ depth =>
    cases j with
    | array items => exact ⟨items, rfl, Nat.succ_pos depth, mapM_eq_ok h⟩
    | null | bool _ | number _ | string _ | object _ => cases h

/-- A list is read if each of its items is. -/
theorem mapM_map {read : Json → Read α} {write : α → Json} {xs : List α}
    (h : ∀ x ∈ xs, read (write x) = .ok x) : (xs.map write).mapM read = .ok xs := by
  induction xs with
  | nil => rfl
  | cons x xs ih =>
    obtain ⟨hx, hxs⟩ := List.forall_mem_cons.1 h
    rw [List.map_cons, List.mapM_cons, hx, ok_bind, ih hxs]
    rfl

/-- A list that a level of depth is left for is read if each of its items is. -/
theorem list_map {write : α → Json} {xs : List α} {depth : Nat} (hdepth : 0 < depth)
    (h : ∀ x ∈ xs, item (depth - 1) (write x) = .ok x) :
    list item depth (.array (xs.map write)) = .ok xs := by
  obtain ⟨depth, rfl⟩ := Nat.exists_eq_succ_of_ne_zero hdepth.ne'
  exact mapM_map h

end Read

/-! ## Records -/

namespace Fields

/-- The keys of written members are the texts that they were written for. -/
theorem keyed_map (members : List (String × Json)) :
    keyed (members.map fun e => (Json.escaped e.1, e.2)) = .ok members := by
  induction members with
  | nil => rfl
  | cons e members ih =>
    rw [List.map_cons, keyed, Json.unescape?_escaped]
    simp only [ih, ok_bind]
    rfl

/-- Members with different keys give the fields of a record. -/
theorem ofMembers_of_nodup {members : List (String × Json)} (h : (members.map Prod.fst).Nodup)
    (names : List String) : ofMembers names members = .ok ⟨members, true⟩ := by
  have hnone : repeated? members names = none := by
    rw [repeated?, List.find?_eq_none]
    intro name _
    rw [decide_eq_true_eq, Nat.not_lt, ← List.countP_eq_length_filter]
    calc
      members.countP (fun e => e.1 == name) = (members.map Prod.fst).count name := by
        rw [List.count, List.countP_map]
        rfl
      _ ≤ 1 := List.nodup_iff_count_le_one.1 h name
  rw [ofMembers, hnone]
  rfl

/-- A record that is made from members with different names has these members. -/
theorem ofJson_ofMembers {members : List (String × Json)} (h : (members.map Prod.fst).Nodup)
    (names : List String) : ofJson names (.ofMembers members) = .ok ⟨members, true⟩ := by
  rw [Json.ofMembers, ofJson, keyed_map, ok_bind, ofMembers_of_nodup h]

variable {α : Type} {f : Fields} {name : String} {read : Json → Read α} {x : α}

/-- A required member is the first one of its name. -/
@[simp] theorem required_cons (key : String) (j : Json) (members : List (String × Json)) :
    required ⟨(key, j) :: members, true⟩ name read =
      if key = name then read j else required ⟨members, true⟩ name read := by
  by_cases h : key = name <;> simp [required, get?, h]

/-- An optional member is the first one of its name. -/
@[simp] theorem optional_cons (key : String) (j : Json) (members : List (String × Json))
    (otherwise : α) :
    optional ⟨(key, j) :: members, true⟩ name otherwise read =
      if key = name then read j else optional ⟨members, true⟩ name otherwise read := by
  by_cases h : key = name <;> simp [optional, get?, h]

/-- A field that must be there is there. -/
theorem required_eq_ok : f.required name read = .ok x ↔
    ∃ j, f.get? name = some j ∧ read j = .ok x := by
  rw [required]
  cases f.get? name with
  | some j => simp
  | none => cases f.named <;> simp [throw, throwThe, MonadExceptOf.throw]

/-- A field with a default is there or has its default. -/
theorem optional_eq_ok {otherwise : α} (h : f.optional name otherwise read = .ok x) :
    x = otherwise ∨ ∃ j, read j = .ok x := by
  rw [optional] at h
  cases hget : f.get? name with
  | some j =>
    rw [hget] at h
    exact .inr ⟨j, h⟩
  | none =>
    rw [hget] at h
    cases h
    exact .inl rfl

/-- What holds of every item that can be read holds of the items of a field, which are none by
default. -/
theorem forall_of_optional_list {item : Nat → Json → Read α} {depth : Nat} {xs : List α}
    {P : α → Prop} (h : f.optional name [] (Read.list item (depth + 1)) = .ok xs)
    (hitem : ∀ j x, item depth j = .ok x → P x) : ∀ x ∈ xs, P x := by
  rcases optional_eq_ok h with rfl | ⟨j, hj⟩
  · simp
  · intro x hx
    obtain ⟨_, -, -, hitems⟩ := Read.list_eq_ok hj
    obtain ⟨j, -, hread⟩ := exists_left hitems hx
    exact hitem j x hread

end Fields

/-! ## Variants -/

namespace Variant

/-- A tag that is a name is that name. -/
theorem readTag_ofText (tags : List String) (inner : Bool) (tag : String) :
    readTag tags inner (.ofText tag) = .ok tag := Read.text_ofText tag

/-- A variant that is made from a tag and members with other names has that tag and these
members. -/
theorem ofJson_ofMembers {tagName tag : String} {members : List (String × Json)} {depth : Nat}
    (tags : List String) (inner : Bool)
    (hwritten : Json.Written (.ofMembers ((tagName, .ofText tag) :: members)))
    (hdepth : (Json.ofMembers ((tagName, .ofText tag) :: members)).nestsWithin depth = true)
    (hname : tagName ∉ members.map Prod.fst) :
    ofJson tagName tags inner depth (.ofMembers ((tagName, .ofText tag) :: members)) =
      .ok ⟨tag, .inl members⟩ := by
  have hother : ∀ e ∈ members, e.1 ≠ tagName := fun e he h =>
    hname (List.mem_map.2 ⟨e, he, h⟩)
  have htag : (members.filter fun e => e.1 == tagName) = [] :=
    List.filter_eq_nil_iff.2 fun e he => by simpa using hother e he
  have hrest : (members.filter fun e => e.1 != tagName) = members :=
    List.filter_eq_self.2 fun e he => by simpa using hother e he
  unfold ofJson
  rw [hwritten.isSettled_eq, hdepth]
  simp only [Json.ofMembers, Bool.not_true, Bool.false_eq_true, if_false, Fields.keyed_map, ok_bind,
    List.filter_cons, BEq.rfl, if_true, htag, bne_self_eq_false, hrest, readTag_ofText]
  rfl

/-- A variant that is made from data and fits is read, and below it a level less is left. -/
theorem exists_ofJson_ofMembers {tagName tag : String} {members : List (String × Json)}
    {depth : Nat} (tags : List String) (inner : Bool)
    (hwritten : Json.Written (.ofMembers ((tagName, .ofText tag) :: members)))
    (hdepth : (Json.ofMembers ((tagName, .ofText tag) :: members)).nestsWithin depth = true)
    (hname : tagName ∉ members.map Prod.fst) :
    ∃ below, depth = below + 1 ∧ (∀ e ∈ members, e.2.nestsWithin below = true) ∧
      ofJson tagName tags inner (below + 1) (.ofMembers ((tagName, .ofText tag) :: members)) =
        .ok ⟨tag, .inl members⟩ := by
  have hread := ofJson_ofMembers tags inner hwritten hdepth hname
  obtain ⟨below, rfl, hparts⟩ := Json.exists_succ_of_nestsWithin hdepth
  exact ⟨below, rfl, fun e he => hparts e (List.mem_cons_of_mem _ he), hread⟩

/-- Members with different keys give the fields of a variant. -/
theorem fields_of_nodup {tag : String} {members : List (String × Json)}
    (h : (members.map Prod.fst).Nodup) (names : List String) :
    fields ⟨tag, .inl members⟩ names = .ok ⟨members, true⟩ := Fields.ofMembers_of_nodup h names

/-- A variant takes a level of depth. -/
theorem pos_of_ofJson {tagName : String} {tags : List String} {inner : Bool} {depth : Nat}
    {j : Json} {v : Variant} (h : ofJson tagName tags inner depth j = .ok v) : 0 < depth := by
  cases depth with
  | succ depth => exact Nat.succ_pos depth
  | zero =>
    unfold ofJson at h
    cases j with
    | array _ | object _ | null | bool _ => cases h
    | number _ | string _ =>
      generalize Json.isSettled 0 _ = settled at h
      cases settled <;> cases h

end Variant

end ContractIR
