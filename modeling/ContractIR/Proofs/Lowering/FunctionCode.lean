import ContractIR.Proofs.Lowering.Code

/-!
# The code of a whole function

A function starts by storing its arguments in cells; the code of the returned expression and the
return follow.  As for expressions, the code is data that depends on the number of the next value
alone.

## Main definitions

* `ContractIR.spillCode`, `ContractIR.spillCells` — the code that fills the cells, and the cells.
* `ContractIR.statementsCode` — the code of statements.
* `ContractIR.FunctionCode`, `ContractIR.Function.code` — a lowered function without its numbers.

## Main results

* `ContractIR.Function.code_eq_ok` — a function that is compiled returns at most once, and its code
  fills the cells, computes what is returned, and returns it.
* `ContractIR.Function.code_typed` — the code of a function is well typed, with its arguments
  known.
-/

set_option autoImplicit false

namespace ContractIR

/-! ## Parameters -/

/-- The code that stores arguments in cells of their own, numbered from `next` on. -/
def spillCode (next : Nat) : List (Parameter × ValueId × Ty × Location) → List CodeLine
  | [] => []
  | (_, arg, ty, location) :: rest =>
    ⟨.alloca ty, location⟩ :: ⟨.store arg ⟨next⟩, location⟩ :: spillCode (next + 1) rest

/-- The cells after arguments were stored. -/
def spillCells (next : Nat) : List (Parameter × ValueId × Ty × Location) → Cells → Cells
  | [], cells => cells
  | (p, _, _, _) :: rest, cells =>
    spillCells (next + 1) rest (cells.bind p.declaration ⟨⟨next⟩, p.ty⟩)

/-- Every parameter gets one cell. -/
@[simp] theorem codeCount_spillCode (next : Nat)
    (params : List (Parameter × ValueId × Ty × Location)) :
    codeCount (spillCode next params) = params.length := by
  induction params generalizing next with
  | nil => rfl
  | cons p params ih =>
    obtain ⟨p, arg, ty, location⟩ := p
    simp [spillCode, ih, Instr.count, Instr.result?]
    omega

/-- Filling cells does not return. -/
theorem ret_notMem_spillCode {next : Nat} {params : List (Parameter × ValueId × Ty × Location)}
    {l : CodeLine} (h : l ∈ spillCode next params) (values : List ValueId) :
    l.instr ≠ .ret values := by
  induction params generalizing next with
  | nil => simp [spillCode] at h
  | cons p params ih =>
    obtain ⟨p, arg, ty, location⟩ := p
    simp only [spillCode, List.mem_cons] at h
    rcases h with rfl | rfl | h
    · simp
    · simp
    · exact ih h

/-- Filling cells is well typed, and every cell is known afterwards.

**Proof sketch.** Induction on the parameters.  The cell has the type of its argument, so the
store is typed; numbers stay below the next one, and what was known stays known. -/
theorem spillCode_typed {results : List Ty} {Γ : Context} {next : Nat}
    {params : List (Parameter × ValueId × Ty × Location)} {cells : Cells}
    (hbelow : Γ.Below next) (hcells : cells.Typed Γ)
    (hargs : ∀ p arg ty location, (p, arg, ty, location) ∈ params →
      Γ arg = some ty ∧ Lowers p.ty ty) :
    CodeTyped results Γ next (spillCode next params) ∧
      (spillCells next params cells).Typed (Γ.after next (spillCode next params)) := by
  induction params generalizing Γ next cells with
  | nil => exact ⟨trivial, hcells⟩
  | cons p params ih =>
    obtain ⟨p, arg, ty, location⟩ := p
    obtain ⟨harg, hty⟩ := hargs p arg ty location (by simp)
    have hbelow' : (Γ.add next (some (.memref ty))).Below (next + 1) :=
      hbelow.add ⟨.alloca ty, location⟩
    have hle := hbelow.le_add (some (.memref ty))
    have hcells' : (cells.bind p.declaration ⟨⟨next⟩, p.ty⟩).Typed
        (Γ.add next (some (.memref ty))) := by
      intro declaration cell hcell
      rw [Cells.lookup?_bind] at hcell
      split at hcell
      · cases hcell
        exact ⟨ty, hty, by simp⟩
      · exact hcells.mono hle declaration cell hcell
    obtain ⟨hcode, hrest⟩ := ih hbelow' hcells' fun q arg' ty' location' hq => by
      obtain ⟨harg', hty'⟩ := hargs q arg' ty' location' (List.mem_cons_of_mem _ hq)
      exact ⟨hle _ _ harg', hty'⟩
    exact ⟨⟨.alloca ty, .store (by simp [Instr.result?]) (hle _ _ harg), hcode⟩, hrest⟩

/-! ## Statements -/

/-- The code of a return statement at a location. -/
def returnCode (source : Source) (cells : Cells) (name : String) (returns : Option SemanticType)
    (expression : Option Expression) (src : SourceRange) (location : Location) (next : Nat) :
    Except CompileError (List CodeLine) :=
  match returns, expression with
  | none, none => .ok []
  | none, some _ => .error (.unsupported (.returnsValue name) location)
  | some _, none => .error (.unsupported (.returnsNothing name) location)
  | some ty, some e => do
    let (code, v) ← e.code source cells next ty
    let place ← locate source src
    return code ++ [⟨.ret [v], place⟩]

/-- The code of some statements, and whether one of them returned, as `returned` says of those
before. -/
def statementsCode (source : Source) (cells : Cells) (name : String)
    (returns : Option SemanticType) :
    Nat → Bool → List Statement → Except CompileError (List CodeLine × Bool)
  | _, returned, [] => .ok ([], returned)
  | next, returned, s :: rest => do
    let location ← locate source s.src
    if returned then .error (.unsupported (.afterReturn s.kindName name) location)
    else
      match s with
      | .ret expression src => do
        let code ← returnCode source cells name returns expression src location next
        let (more, returned) ←
          statementsCode source cells name returns (next + codeCount code) true rest
        return (code ++ more, returned)
      | _ => .error (.unsupported (.statement s.kindName name) location)

/-- Nothing follows a return. -/
theorem statementsCode_true_eq_ok {source : Source} {cells : Cells} {name : String}
    {returns : Option SemanticType} {next : Nat} {body : List Statement} {code : List CodeLine}
    {returned : Bool}
    (h : statementsCode source cells name returns next true body = .ok (code, returned)) :
    body = [] ∧ code = [] ∧ returned = true := by
  cases body with
  | nil =>
    simp only [statementsCode, Except.ok.injEq, Prod.mk.injEq] at h
    exact ⟨rfl, h.1.symm, h.2.symm⟩
  | cons s rest =>
    obtain ⟨location, _, h⟩ := Outcome.bind_eq_ok.1 h
    simp at h

/-- A body that is compiled is empty or a single return.

**Proof sketch.** By the first statement: none, or a return, whose code comes first; behind a
return nothing more is compiled (`statementsCode_true_eq_ok`), and other statements are not
supported. -/
theorem statementsCode_eq_ok {source : Source} {cells : Cells} {name : String}
    {returns : Option SemanticType} {next : Nat} {body : List Statement} {code : List CodeLine}
    {returned : Bool}
    (h : statementsCode source cells name returns next false body = .ok (code, returned)) :
    (body = [] ∧ code = [] ∧ returned = false) ∨
      ∃ expression src location, body = [.ret expression src] ∧ returned = true ∧
        locate source src = .ok location ∧
        returnCode source cells name returns expression src location next = .ok code := by
  cases body with
  | nil =>
    simp only [statementsCode, Except.ok.injEq, Prod.mk.injEq] at h
    exact .inl ⟨rfl, h.1.symm, h.2.symm⟩
  | cons s rest =>
    obtain ⟨location, hloc, h⟩ := Outcome.bind_eq_ok.1 h
    simp only [Bool.false_eq_true, ↓reduceIte] at h
    cases s with
    | ret expression src =>
      obtain ⟨first, hfirst, h⟩ := Outcome.bind_eq_ok.1 h
      obtain ⟨⟨more, done⟩, hmore, h⟩ := Outcome.bind_eq_ok.1 h
      simp only [pure, Except.pure, Except.ok.injEq, Prod.mk.injEq] at h
      obtain ⟨rfl, rfl⟩ := h
      obtain ⟨rfl, rfl, rfl⟩ := statementsCode_true_eq_ok hmore
      exact .inr ⟨expression, src, location, rfl, rfl, hloc, by simpa using hfirst⟩
    | block | expression | variableDeclaration | ifStatement | whileStatement | breakStatement
    | continueStatement => simp at h

/-! ## Functions -/

/-- A lowered function: what it is called, what it takes and gives, and its code. -/
structure FunctionCode where
  name : String
  signature : Signature
  location : Location
  code : List CodeLine
deriving Inhabited

/-- The parameters of a function with the values of its arguments, numbered from `first` on. -/
def Function.arguments (f : Function) (first : Nat) (inputs : List (Ty × Location)) :
    List (Parameter × ValueId × Ty × Location) :=
  f.parameters.zip (((List.range inputs.length).map fun i => ⟨first + i⟩).zip inputs)

/-- The code of a function whose arguments are numbered from `first` on. -/
def Function.code (source : Source) (f : Function) (first : Nat) :
    Except CompileError FunctionCode := do
  let location ← locate source f.src
  let inputs ← f.parameters.mapM (lowerParameter source)
  let results ← f.returns.mapM (lowerParameter source)
  if 1 < f.returns.length then
    .error (.unsupported (.manyReturns f.name f.returns.length) location)
  else do
    let returns := f.returns.head?.map Parameter.ty
    let params := f.arguments first inputs
    let next := first + inputs.length
    let spilled := spillCode next params
    let (body, returned) ← statementsCode source (spillCells next params {}) f.name returns
      (next + codeCount spilled) false f.body
    let signature : Signature := ⟨inputs.map Prod.fst, results.map Prod.fst⟩
    match returns with
    | none => return ⟨f.name, signature, location, spilled ++ body ++ [⟨.ret [], location⟩]⟩
    | some _ =>
      if returned then return ⟨f.name, signature, location, spilled ++ body⟩
      else .error (.unsupported (.missingReturn f.name) location)

/-- The code of a function without a result: the cells are filled, and nothing is returned. -/
def VoidCode (f : Function) (first : Nat) (inputs : List (Ty × Location)) (location : Location)
    (code : List CodeLine) : Prop :=
  f.returns = [] ∧ (f.body = [] ∨ ∃ src, f.body = [.ret none src]) ∧
    code = spillCode (first + inputs.length) (f.arguments first inputs) ++ [⟨.ret [], location⟩]

/-- The code of a function with a result: the cells are filled, the expression is computed in the
type of the result, and its value is returned. -/
def ValueCode (source : Source) (f : Function) (first : Nat) (inputs : List (Ty × Location))
    (code : List CodeLine) : Prop :=
  ∃ p e src place body v, f.returns = [p] ∧ f.body = [.ret (some e) src] ∧
    locate source src = .ok place ∧
    e.code source (spillCells (first + inputs.length) (f.arguments first inputs) {})
      (first + inputs.length + codeCount
        (spillCode (first + inputs.length) (f.arguments first inputs))) p.ty = .ok (body, v) ∧
    code = spillCode (first + inputs.length) (f.arguments first inputs) ++
      (body ++ [⟨.ret [v], place⟩])

/-- **How a function is compiled.**  Its parameters and results are lowered, it returns at most
once, and its code has one of two forms.

**Proof sketch.** The steps of the compilation, one by one.  By the results: without any, the
body is empty or returns nothing; with one, the body returns an expression, because a function
that does not would be refused. -/
theorem Function.code_eq_ok {source : Source} {f : Function} {first : Nat} {c : FunctionCode}
    (h : f.code source first = .ok c) :
    ∃ location inputs results, locate source f.src = .ok location ∧
      f.parameters.mapM (lowerParameter source) = .ok inputs ∧
      f.returns.mapM (lowerParameter source) = .ok results ∧ c.name = f.name ∧
      c.signature = ⟨inputs.map Prod.fst, results.map Prod.fst⟩ ∧ c.location = location ∧
      (VoidCode f first inputs location c.code ∨ ValueCode source f first inputs c.code) := by
  obtain ⟨location, hloc, h⟩ := Outcome.bind_eq_ok.1 h
  obtain ⟨inputs, hin, h⟩ := Outcome.bind_eq_ok.1 h
  obtain ⟨results, hout, h⟩ := Outcome.bind_eq_ok.1 h
  refine ⟨location, inputs, results, hloc, hin, hout, ?_⟩
  split at h
  · simp at h
  · rename_i hmany
    obtain ⟨⟨body, returned⟩, hbody, h⟩ := Outcome.bind_eq_ok.1 h
    cases hret : f.returns with
    | nil =>
      simp only [hret, List.head?_nil, Option.map_none, pure, Except.pure, Except.ok.injEq] at h
      subst h
      refine ⟨rfl, by simp, rfl, .inl ⟨hret, ?_⟩⟩
      simp only [hret, List.head?_nil, Option.map_none] at hbody
      rcases statementsCode_eq_ok hbody with ⟨hb, rfl, rfl⟩ | ⟨e, src, place, hb, rfl, _, hcode⟩
      · exact ⟨.inl hb, by simp⟩
      · cases e with
        | none =>
          simp only [returnCode, Except.ok.injEq] at hcode
          subst hcode
          exact ⟨.inr ⟨src, hb⟩, by simp⟩
        | some e => simp [returnCode] at hcode
    | cons p ps =>
      obtain rfl : ps = [] := by
        rw [hret] at hmany
        cases ps with
        | nil => rfl
        | cons => simp at hmany
      simp only [hret, List.head?_cons, Option.map_some] at h hbody
      cases returned with
      | false => simp at h
      | true =>
        simp only [↓reduceIte, pure, Except.pure, Except.ok.injEq] at h
        subst h
        refine ⟨rfl, by simp, rfl, .inr ?_⟩
        rcases statementsCode_eq_ok hbody with ⟨_, _, hfalse⟩ |
          ⟨e, src, place, hb, _, hplace, hcode⟩
        · simp at hfalse
        · cases e with
          | none => simp [returnCode] at hcode
          | some e =>
            obtain ⟨⟨code, v⟩, hexpr, hcode⟩ := Outcome.bind_eq_ok.1 hcode
            obtain ⟨place', hplace', hcode⟩ := Outcome.bind_eq_ok.1 hcode
            obtain rfl : place = place' := by simpa [hplace] using hplace'
            simp only [pure, Except.pure, Except.ok.injEq] at hcode
            subst hcode
            exact ⟨p, e, src, place, code, v, hret, hb, hplace, hexpr, rfl⟩

/-! ## Typing of functions -/

/-- The arguments of a function, numbered from `first` on, are known. -/
def argContext (first : Nat) (inputs : List Ty) : Context := fun v =>
  if first ≤ v.index then inputs[v.index - first]? else none

/-- Nothing is known besides the arguments. -/
theorem argContext_below (first : Nat) (inputs : List Ty) :
    (argContext first inputs).Below (first + inputs.length) := by
  intro v ty hv
  unfold argContext at hv
  split at hv
  · have := (List.getElem?_eq_some_iff.1 hv).1
    omega
  · simp at hv

/-- Each argument has the type of its input. -/
@[simp] theorem argContext_add (first : Nat) (inputs : List Ty) (i : Nat) :
    argContext first inputs ⟨first + i⟩ = inputs[i]? := by
  simp [argContext]

/-- Every parameter is paired with the value and the lowered type at its own place. -/
theorem Function.getElem?_of_mem_arguments {f : Function} {first : Nat}
    {inputs : List (Ty × Location)} {p : Parameter} {arg : ValueId} {ty : Ty} {location : Location}
    (h : (p, arg, ty, location) ∈ f.arguments first inputs) :
    ∃ i, f.parameters[i]? = some p ∧ arg = ⟨first + i⟩ ∧ inputs[i]? = some (ty, location) := by
  obtain ⟨i, hi⟩ := List.mem_iff_getElem?.1 h
  obtain ⟨hp, hrest⟩ := List.getElem?_zip_eq_some.1 hi
  obtain ⟨harg, hin⟩ := List.getElem?_zip_eq_some.1 hrest
  refine ⟨i, hp, ?_, hin⟩
  simp only [List.getElem?_map, Option.map_eq_some_iff] at harg
  obtain ⟨j, hj, harg⟩ := harg
  obtain ⟨_, rfl⟩ := List.getElem?_eq_some_iff.1 hj
  simpa using harg.symm

/-- What lowering a list of parameters says about each of them. -/
theorem lowers_of_mapM {source : Source} {ps : List Parameter} {lowered : List (Ty × Location)}
    (h : ps.mapM (lowerParameter source) = .ok lowered) {i : Nat} {p : Parameter} {ty : Ty}
    {location : Location} (hp : ps[i]? = some p) (hl : lowered[i]? = some (ty, location)) :
    Lowers p.ty ty := by
  have hall := Outcome.mapM_eq_ok h
  obtain ⟨hi, hp⟩ := List.getElem?_eq_some_iff.1 hp
  obtain ⟨hj, hl⟩ := List.getElem?_eq_some_iff.1 hl
  have hpair := (List.forall₂_iff_get.1 hall).2 i hi hj
  simp only [List.get_eq_getElem, hp, hl] at hpair
  obtain ⟨place, _, hrest⟩ := Outcome.bind_eq_ok.1 hpair
  obtain ⟨ty', hty, hrest⟩ := Outcome.bind_eq_ok.1 hrest
  simp only [pure, Except.pure, Except.ok.injEq, Prod.mk.injEq] at hrest
  exact hrest.1 ▸ (lowerType_eq_ok hty).1

/-- Lowering keeps the number of parameters. -/
theorem length_of_mapM {source : Source} {ps : List Parameter} {lowered : List (Ty × Location)}
    (h : ps.mapM (lowerParameter source) = .ok lowered) : lowered.length = ps.length :=
  (Outcome.mapM_eq_ok h).length_eq.symm

/-- Filling the cells of a function is well typed, and its cells are known afterwards. -/
theorem Function.spillCode_typed {source : Source} {f : Function} (first : Nat)
    {inputs : List (Ty × Location)} (results : List Ty)
    (hin : f.parameters.mapM (lowerParameter source) = .ok inputs) :
    CodeTyped results (argContext first (inputs.map Prod.fst)) (first + inputs.length)
        (spillCode (first + inputs.length) (f.arguments first inputs)) ∧
      (spillCells (first + inputs.length) (f.arguments first inputs) {}).Typed
        ((argContext first (inputs.map Prod.fst)).after (first + inputs.length)
          (spillCode (first + inputs.length) (f.arguments first inputs))) := by
  have hbelow : (argContext first (inputs.map Prod.fst)).Below (first + inputs.length) := by
    simpa using argContext_below first (inputs.map Prod.fst)
  refine ContractIR.spillCode_typed hbelow ?_ ?_
  · intro declaration cell hcell
    simp [Cells.lookup?] at hcell
  · intro p arg ty location hmem
    obtain ⟨i, hp, rfl, hi⟩ := Function.getElem?_of_mem_arguments hmem
    exact ⟨by simp [hi], lowers_of_mapM hin hp hi⟩

/-- **The code of a function is well typed**, its arguments being known.

**Proof sketch.** The cells are filled with arguments of the cells' types; the returned expression
is well typed with these cells (`Expression.code_typed`), and leaves a value of the type that the
result is lowered to. -/
theorem Function.code_typed {source : Source} {f : Function} {first : Nat} {c : FunctionCode}
    (h : f.code source first = .ok c) :
    CodeTyped c.signature.results (argContext first c.signature.inputs)
      (first + c.signature.inputs.length) c.code := by
  obtain ⟨location, inputs, results, _, hin, hout, _, hsig, _, hcode⟩ := Function.code_eq_ok h
  obtain ⟨hspill, hcells⟩ :=
    Function.spillCode_typed first (results.map Prod.fst) hin
  have hbelow : (argContext first (inputs.map Prod.fst)).Below (first + inputs.length) := by
    simpa using argContext_below first (inputs.map Prod.fst)
  rw [hsig]
  simp only [List.length_map]
  rcases hcode with ⟨hret, _, hcode⟩ | ⟨p, e, src, place, body, v, hret, _, _, he, hcode⟩
  · rw [hcode, codeTyped_append]
    refine ⟨hspill, .ret ?_, trivial⟩
    rw [hret] at hout
    simp only [List.mapM_nil, pure, Except.pure, Except.ok.injEq] at hout
    simp [← hout]
  · obtain ⟨hbody, ty, hty, hv⟩ := Expression.code_typed (results.map Prod.fst) e he hcells
      (hbelow.after _)
    rw [hcode, codeTyped_append, codeTyped_append]
    refine ⟨hspill, hbody, .ret ?_, trivial⟩
    have hlen := length_of_mapM hout
    rw [hret] at hout hlen
    obtain ⟨⟨ty', place'⟩, rfl⟩ : ∃ r, results = [r] := List.length_eq_one_iff.1 hlen
    have hlow : Lowers p.ty ty' := lowers_of_mapM hout (i := 0) rfl rfl
    have heq : ty = ty' := by simpa [hty .unknown] using hlow .unknown
    simp only [List.map_cons, List.map_nil, hv, heq]

/-- A single return ends the code. -/
def Terminated (code : List CodeLine) : Prop :=
  ∃ init values location, code = init ++ [⟨.ret values, location⟩] ∧
    ∀ l ∈ init, ∀ values, l.instr ≠ .ret values

/-- Computing an expression does not return. -/
theorem Expression.ret_notMem_code {source : Source} {cells : Cells} (e : Expression) {next : Nat}
    {expected : SemanticType} {code : List CodeLine} {v : ValueId}
    (h : e.code source cells next expected = .ok (code, v)) {l : CodeLine} (hl : l ∈ code)
    (values : List ValueId) : l.instr ≠ .ret values := by
  have hlines := Expression.forall_mem_code (P := fun i => i ≠ .ret values) (Q := fun _ => True)
    (fun _ _ => by simp) (fun _ _ _ _ => by simp) (fun _ _ _ _ _ _ => by simp)
    (fun _ _ _ _ => by simp) e (fun _ _ => trivial) h
  exact hlines.1 l hl

/-- The code of a function ends with its only return. -/
theorem Function.code_terminated {source : Source} {f : Function} {first : Nat} {c : FunctionCode}
    (h : f.code source first = .ok c) : Terminated c.code := by
  obtain ⟨location, inputs, results, _, _, _, _, _, _, hcode⟩ := Function.code_eq_ok h
  rcases hcode with ⟨_, _, hcode⟩ | ⟨p, e, src, place, body, v, _, _, _, he, hcode⟩
  · exact ⟨_, [], location, hcode, fun l hl => ret_notMem_spillCode hl⟩
  · refine ⟨_, [v], place, by rw [hcode, ← List.append_assoc], fun l hl => ?_⟩
    rcases List.mem_append.1 hl with hl | hl
    · exact ret_notMem_spillCode hl
    · exact e.ret_notMem_code he hl

end ContractIR
