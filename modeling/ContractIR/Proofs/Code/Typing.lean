import ContractIR.Proofs.Code.Basic

/-!
# Well-typed code

A context gives the types of the values that are known at a place.  Code is well typed in a context
if every line only reads known values, of the types that its instruction asks for; its result is
known from there on.

## Main definitions

* `ContractIR.Context` — types of known values, `ContractIR.Context.after` — those known after code.
* `ContractIR.Instr.Typed`, `ContractIR.CodeTyped` — instructions and code that fit a context.
* `ContractIR.Module.Knows` — the values of a module have the types that a context says.

## Main results

* `ContractIR.codeTyped_append` — code is checked part by part.
* `ContractIR.Module.Knows.addLines` — a module knows the results of the code that was emitted.
-/

set_option autoImplicit false

namespace ContractIR

/-! ## Contexts -/

/-- The types of the values that are known. -/
abbrev Context := ValueId → Option Ty

namespace Context

/-- The context in which the value numbered `next` is known too, if there is a type for it. -/
def add (Γ : Context) (next : Nat) : Option Ty → Context
  | none => Γ
  | some ty => fun v => if v = ⟨next⟩ then some ty else Γ v

/-- What is known after some lines whose results are numbered from `next` on. -/
def after (Γ : Context) : Nat → List CodeLine → Context
  | _, [] => Γ
  | next, l :: code => after (Γ.add next l.instr.result?) (next + l.instr.count) code

/-- Every known value has a number below `next`. -/
def Below (Γ : Context) (next : Nat) : Prop := ∀ v ty, Γ v = some ty → v.index < next

/-- Everything that is known in `Γ` is known in `Δ`. -/
def Le (Γ Δ : Context) : Prop := ∀ v ty, Γ v = some ty → Δ v = some ty

/-- A context knows what it knows. -/
theorem Le.refl (Γ : Context) : Γ.Le Γ := fun _ _ h => h

/-- Knowing more is transitive. -/
theorem Le.trans {Γ Δ Θ : Context} (h : Γ.Le Δ) (k : Δ.Le Θ) : Γ.Le Θ :=
  fun v ty hv => k v ty (h v ty hv)

/-- What is known behind code is known behind its parts, one after the other. -/
theorem after_append (Γ : Context) (next : Nat) (code more : List CodeLine) :
    Γ.after next (code ++ more) = (Γ.after next code).after (next + codeCount code) more := by
  induction code generalizing Γ next with
  | nil => rfl
  | cons l code ih =>
    simp only [List.cons_append, after, ih, codeCount_cons]
    congr 1
    omega

/-- The types of values that are known with the types that they have. -/
theorem typesOf_eq {m : Module} {Γ : Context} (hΓ : ∀ v ty, Γ v = some ty → m.typeOf v = ty)
    {values : List ValueId} {types : List Ty} (h : values.map Γ = types.map some) :
    m.typesOf values = types := by
  induction values generalizing types with
  | nil =>
    rw [List.map_nil, eq_comm, List.map_eq_nil_iff] at h
    rw [h]
    rfl
  | cons v values ih =>
    cases types with
    | nil => cases h
    | cons ty types =>
      simp only [List.map_cons, List.cons.injEq] at h
      rw [Module.typesOf, List.map_cons, hΓ v ty h.1, ← Module.typesOf, ih h.2]

/-- The new value has the number that it was given. -/
@[simp] theorem add_self (Γ : Context) (next : Nat) (ty : Ty) :
    Γ.add next (some ty) ⟨next⟩ = some ty := by
  simp [add]

/-- With a new value, numbers stay below the next number.

**Proof sketch.** A line without a result leaves the context and may not lower the next number.
A line with one counts one value, and only the new value has that number. -/
theorem Below.add {Γ : Context} {next : Nat} (h : Γ.Below next) (l : CodeLine) :
    (Γ.add next l.instr.result?).Below (next + l.instr.count) := by
  intro v ty hv
  cases hr : l.instr.result? with
  | none =>
    rw [hr] at hv
    exact Nat.lt_of_lt_of_le (h v ty hv) (Nat.le_add_right _ _)
  | some ty' =>
    rw [hr] at hv
    have hcount : l.instr.count = 1 := by simp [Instr.count, hr]
    simp only [Context.add] at hv
    split at hv
    · rename_i hvn
      rw [hvn, hcount]
      exact Nat.lt_succ_self _
    · have := h v ty hv
      omega

/-- A new value hides nothing that was known. -/
theorem Below.le_add {Γ : Context} {next : Nat} (h : Γ.Below next) (ty? : Option Ty) :
    Γ.Le (Γ.add next ty?) := by
  intro v ty hv
  cases ty? with
  | none => exact hv
  | some ty' =>
    have hlt := h v ty hv
    have hne : v ≠ ⟨next⟩ := by
      rintro rfl
      exact Nat.lt_irrefl _ hlt
    simp [Context.add, hne, hv]

/-- After code, numbers stay below the next number. -/
theorem Below.after {Γ : Context} {next : Nat} (h : Γ.Below next) (code : List CodeLine) :
    (Γ.after next code).Below (next + codeCount code) := by
  induction code generalizing Γ next with
  | nil => exact h
  | cons l code ih =>
    have hrest := ih (h.add l)
    rw [codeCount_cons, ← Nat.add_assoc]
    exact hrest

/-- Code hides nothing that was known. -/
theorem Below.le_after {Γ : Context} {next : Nat} (h : Γ.Below next) (code : List CodeLine) :
    Γ.Le (Γ.after next code) := by
  induction code generalizing Γ next with
  | nil => exact Le.refl Γ
  | cons l code ih => exact (h.le_add l.instr.result?).trans (ih (h.add l))

end Context

/-! ## Typing -/

/-- The instruction only reads known values of the types that it asks for.  A return hands back
values of the types `results`. -/
inductive Instr.Typed (results : List Ty) (Γ : Context) : Instr → Prop
  | constant (n : Int) (w : Nat) : Typed results Γ (.constant n (.int w))
  | arith (op : Arithmetic) {lhs rhs : ValueId} {w : Nat} (hl : Γ lhs = some (.int w))
    (hr : Γ rhs = some (.int w)) : Typed results Γ (.arith op lhs rhs (.int w))
  | extend (signed : Bool) {v : ValueId} {w w' : Nat} (hv : Γ v = some (.int w)) (h : w < w') :
    Typed results Γ (.extend signed v (.int w'))
  | alloca (elem : Ty) : Typed results Γ (.alloca elem)
  | load {cell : ValueId} {ty : Ty} (h : Γ cell = some (.memref ty)) :
    Typed results Γ (.load cell ty)
  | store {v cell : ValueId} {ty : Ty} (hc : Γ cell = some (.memref ty)) (hv : Γ v = some ty) :
    Typed results Γ (.store v cell)
  | ret {values : List ValueId} (h : values.map Γ = results.map some) :
    Typed results Γ (.ret values)

/-- Every operand of a well-typed instruction is known.

**Proof sketch.** One case for each typing rule: its premises give the type of every operand,
those of a return through the list of the result types. -/
theorem Instr.Typed.operand_known {results : List Ty} {Γ : Context} {i : Instr}
    (h : i.Typed results Γ) {v : ValueId} (hv : v ∈ i.operands) : ∃ ty, Γ v = some ty := by
  cases h with
  | constant | alloca => simp [Instr.operands] at hv
  | arith op hl hr =>
    simp only [Instr.operands, List.mem_cons, List.not_mem_nil, or_false] at hv
    rcases hv with rfl | rfl
    · exact ⟨_, hl⟩
    · exact ⟨_, hr⟩
  | extend signed hv' h =>
    simp only [Instr.operands, List.mem_singleton] at hv
    exact ⟨_, hv ▸ hv'⟩
  | load h =>
    simp only [Instr.operands, List.mem_singleton] at hv
    exact ⟨_, hv ▸ h⟩
  | store hc hv' =>
    simp only [Instr.operands, List.mem_cons, List.not_mem_nil, or_false] at hv
    rcases hv with rfl | rfl
    · exact ⟨_, hv'⟩
    · exact ⟨_, hc⟩
  | ret h =>
    have hmem : Γ v ∈ results.map some := h ▸ List.mem_map_of_mem hv
    obtain ⟨ty, _, hty⟩ := List.mem_map.1 hmem
    exact ⟨ty, hty.symm⟩

/-- Every line fits what is known there. -/
def CodeTyped (results : List Ty) : Context → Nat → List CodeLine → Prop
  | _, _, [] => True
  | Γ, next, l :: code =>
    l.instr.Typed results Γ ∧
      CodeTyped results (Γ.add next l.instr.result?) (next + l.instr.count) code

/-- Code is checked part by part. -/
theorem codeTyped_append {results : List Ty} {Γ : Context} {next : Nat}
    {code more : List CodeLine} :
    CodeTyped results Γ next (code ++ more) ↔
      CodeTyped results Γ next code ∧
        CodeTyped results (Γ.after next code) (next + codeCount code) more := by
  induction code generalizing Γ next with
  | nil => simp [CodeTyped, Context.after]
  | cons l code ih =>
    simp only [List.cons_append, CodeTyped, ih, Context.after, codeCount_cons, and_assoc,
      Nat.add_assoc]

/-! ## Contexts of modules -/

/-- The values of a module have the types that a context says. -/
def Module.Knows (m : Module) (Γ : Context) : Prop :=
  ∀ v ty, Γ v = some ty → v.index < m.values.size ∧ m.typeOf v = ty

namespace Module.Knows

/-- A module knows no value that it does not have. -/
theorem below {m : Module} {Γ : Context} (h : m.Knows Γ) : Γ.Below m.values.size :=
  fun v ty hv => (h v ty hv).1

/-- A module that was extended knows what it knew. -/
theorem mono {m n : Module} {Γ : Context} {B : BlockId → Prop} (h : m.Knows Γ)
    (hext : Module.Extends B m n) : n.Knows Γ := by
  intro v ty hv
  obtain ⟨hlt, hty⟩ := h v ty hv
  refine ⟨Nat.lt_of_lt_of_le hlt hext.size_values, ?_⟩
  rw [typeOf, hext.values v hlt]
  exact hty

/-- A module knows the result of a line that was emitted. -/
theorem addLine {m : Module} {Γ : Context} (h : m.Knows Γ) (b : BlockId) (l : CodeLine) :
    (m.addLine b l).Knows (Γ.add m.values.size l.instr.result?) := by
  intro v ty hv
  cases hr : l.instr.result? with
  | none =>
    rw [hr] at hv
    exact h.mono (extends_addLines m b [l]) v ty hv
  | some ty' =>
    rw [hr] at hv
    simp only [Context.add] at hv
    split at hv
    · rename_i hvn
      obtain rfl : ty' = ty := by simpa using hv
      rw [hvn, typeOf, value_addLine_new m b l hr]
      exact ⟨by simp [Instr.count, hr], rfl⟩
    · exact h.mono (extends_addLines m b [l]) v ty hv

/-- A module knows the results of code that was emitted. -/
theorem addLines {m : Module} {Γ : Context} (h : m.Knows Γ) (b : BlockId) (code : List CodeLine) :
    (m.addLines b code).Knows (Γ.after m.values.size code) := by
  induction code generalizing m Γ with
  | nil => exact h
  | cons l code ih =>
    have hrest := ih (h.addLine b l)
    rw [size_values_addLine] at hrest
    exact hrest

end Module.Knows

end ContractIR
