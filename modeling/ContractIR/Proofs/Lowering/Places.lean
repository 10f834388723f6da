import ContractIR.Proofs.Lowering.ParameterCells

/-!
# Where operations come from

Every operation of a lowered module comes from a node of the contracts, and has the place at which
the text of the node starts.  The nodes are listed in the order in which a walk over the module
meets their operations: a function before its parameters, operands before the operation that they
are operands of, and behind the value of an expression its conversion, if there is one.

## Main definitions

* `ContractIR.Node`, `ContractIR.Origin` — nodes, and operations that come from them.
* `ContractIR.Expression.origins`, `ContractIR.Function.origins`, `ContractIR.Contract.origins` —
  the operations of expressions, functions and contracts.
* `ContractIR.Source.Locates` — a location is the place at which a stretch of text starts.
* `ContractIR.Module.FollowsValue` — an extension stands behind the operation whose value it
  converts.

## Main results

* `ContractIR.Expression.code_origins`, `ContractIR.FunctionSite.Of.code_origins` — the lines of
  expressions and functions.
* `ContractIR.lowerContracts_located` — the operations of a lowered module are located where they
  come from.
-/

set_option autoImplicit false

namespace ContractIR

/-! ## Nodes -/

/-- A node of a checked contract. -/
inductive Node where
  | contract (c : Contract)
  | function (f : Function)
  | parameter (p : Parameter)
  | statement (s : Statement)
  | expression (e : Expression)
deriving Inhabited

/-- The text of a node. -/
def Node.range : Node → SourceRange
  | .contract c => c.src
  | .function f => f.src
  | .parameter p => p.src
  | .statement s => s.src
  | .expression e => e.src

/-- An operation that a node is compiled to. -/
structure Origin where
  kind : OpKind
  node : Node
deriving Inhabited

/-- The conversion of the value of an expression to the type that is expected, if there is one. -/
def Expression.conversion (e : Expression) (own expected : SemanticType) : List Origin :=
  if isIdentityCast own expected then []
  else
    match expected.interpretation? with
    | some t => [⟨.arith (if t.signed then .extsi else .extui), .expression e⟩]
    | none => []

/-- The operations of an expression, given the types of variables. -/
def Expression.origins (types : UInt64 → Option SemanticType) :
    Expression → SemanticType → List Origin
  | .literal text ty src, expected =>
    let e := Expression.literal text ty src
    ⟨.arith .constant, .expression e⟩ :: e.conversion (literalTarget ty expected) expected
  | .identifier name declaration ty src, expected =>
    let e := Expression.identifier name declaration ty src
    ⟨.memref .load, .expression e⟩ ::
      ((types declaration).toList.flatMap fun own => e.conversion own expected)
  | .binary operator left right ty src, expected =>
    let e := Expression.binary operator left right ty src
    left.origins types ty ++ (right.origins types ty ++
      ⟨.arith (if operator = .add then .addi else .muli), .expression e⟩ ::
        e.conversion ty expected)

/-- The operations of a parameter. -/
def Parameter.origins (p : Parameter) : List Origin :=
  [⟨.memref .alloca, .parameter p⟩, ⟨.memref .store, .parameter p⟩]

namespace Function

/-- The type of a variable: that of the last parameter with its declaration. -/
def typeOf? (f : Function) (d : UInt64) : Option SemanticType :=
  (f.parameters.reverse.find? fun p => decide (p.declaration = d)).map Parameter.ty

/-- The operations that follow the parameters of a function: what is returned, and the return. -/
def bodyOrigins (f : Function) : List Origin :=
  match f.returns, f.body with
  | [p], [.ret (some e) src] =>
    e.origins f.typeOf? p.ty ++ [⟨.func .ret, .statement (.ret (some e) src)⟩]
  | _, _ => [⟨.func .ret, .function f⟩]

/-- The operations of a function. -/
def origins (f : Function) : List Origin :=
  ⟨.func .func, .function f⟩ :: (f.parameters.flatMap Parameter.origins ++ f.bodyOrigins)

end Function

/-- The operations of a contract. -/
def Contract.origins (c : Contract) : List Origin :=
  ⟨.sol .contract, .contract c⟩ :: c.functions.flatMap Function.origins

/-! ## Located lines -/

/-- A location is the line and the column at which a stretch of text of a source starts. -/
def Source.Locates (source : Source) (range : SourceRange) (location : Location) : Prop :=
  ∃ line column, source.position range.start.toNat = .ok (line, column) ∧
    location = .known source.name line column

/-- What lowering takes for the location of a stretch of text is the place where it starts. -/
theorem Source.locates_of_locate {source : Source} {range : SourceRange} {location : Location}
    (h : locate source range = .ok location) : source.Locates range location := by
  unfold locate Source.location at h
  cases hpos : source.position range.start.toNat with
  | error e =>
    rw [hpos] at h
    cases h
  | ok q =>
    rw [hpos] at h
    exact ⟨q.1, q.2, hpos, (Except.ok.inj h).symm⟩

/-- A line has the kind of an operation, and the place of the node that it comes from. -/
structure CodeLine.ComesFrom (source : Source) (l : CodeLine) (q : Origin) : Prop where
  kind : l.instr.kind = q.kind
  location : source.Locates q.node.range l.location

/-- A conversion has the place of the expression whose value is converted. -/
theorem Expression.convertCode_origins {source : Source} {e : Expression} {location : Location}
    {next : Nat} {v w : ValueId} {own expected : SemanticType} {code : List CodeLine}
    (hloc : locate source e.src = .ok location)
    (h : convertCode location next v own expected = .ok (code, w)) :
    List.Forall₂ (CodeLine.ComesFrom source) code (e.conversion own expected) := by
  rcases convertCode_eq_ok h with ⟨hid, rfl, -⟩ | ⟨_, t, ty, hid, _, ht, _, _, rfl, -⟩
  · simp [conversion, hid]
  · simp only [conversion, hid, ht, Bool.false_eq_true, ↓reduceIte]
    refine .cons ⟨?_, Source.locates_of_locate hloc⟩ .nil
    cases t.signed <;> rfl

/-- **The lines of an expression come from its nodes.**

**Proof sketch.** Induction on the expression: its own line is at its location, lines of a
conversion are at the same one (`convertCode_origins`), and those of the two sides come first. -/
theorem Expression.code_origins {source : Source} {cells : Cells}
    {types : UInt64 → Option SemanticType}
    (htypes : ∀ d cell, cells.lookup? d = some cell → types d = some cell.ty) (e : Expression)
    {next : Nat} {expected : SemanticType} {code : List CodeLine} {v : ValueId}
    (h : e.code source cells next expected = .ok (code, v)) :
    List.Forall₂ (CodeLine.ComesFrom source) code (e.origins types expected) := by
  induction e generalizing next expected code v with
  | literal text ty src =>
    obtain ⟨location, lowered, n, more, hloc, _, _, hmore, rfl⟩ :=
      Expression.code_literal_eq_ok h
    exact .cons ⟨rfl, Source.locates_of_locate hloc⟩ (convertCode_origins hloc hmore)
  | identifier name declaration ty src =>
    obtain ⟨location, cell, lowered, more, hloc, hcell, _, hmore, rfl⟩ :=
      Expression.code_identifier_eq_ok h
    refine .cons ⟨rfl, Source.locates_of_locate hloc⟩ ?_
    simp only [htypes declaration cell hcell, Option.toList_some, List.flatMap_singleton]
    exact convertCode_origins hloc hmore
  | binary operator left right ty src ihl ihr =>
    obtain ⟨op, leftCode, lhs, rightCode, rhs, location, lowered, more, hop, hleft, hright, hloc,
      _, hmore, rfl⟩ := Expression.code_binary_eq_ok h
    refine List.rel_append (ihl hleft) (List.rel_append (ihr hright)
      (.cons ⟨?_, Source.locates_of_locate hloc⟩ (convertCode_origins hloc hmore)))
    cases operator with
    | add | mul =>
      obtain rfl := Option.some.inj hop
      rfl
    | _ => cases hop

/-- The lines that fill the cells come from the parameters. -/
theorem spillCode_origins {source : Source} {ps : List Parameter} {args : List ValueId}
    {inputs : List (Ty × Location)} (hin : ps.mapM (lowerParameter source) = .ok inputs)
    (hargs : args.length = inputs.length) (next : Nat) :
    List.Forall₂ (CodeLine.ComesFrom source) (spillCode next (ps.zip (args.zip inputs)))
      (ps.flatMap Parameter.origins) := by
  have hall := Outcome.mapM_eq_ok hin
  clear hin
  induction hall generalizing args next with
  | nil => exact .nil
  | @cons p q ps inputs hp _ ih =>
    cases args with
    | nil => cases hargs
    | cons arg args =>
      obtain ⟨location, hloc, hp⟩ := Outcome.bind_eq_ok.1 hp
      obtain ⟨ty, _, hp⟩ := Outcome.bind_eq_ok.1 hp
      obtain rfl : (ty, location) = q := Except.ok.inj hp
      have hplace := Source.locates_of_locate hloc
      exact .cons ⟨rfl, hplace⟩ (.cons ⟨rfl, hplace⟩ (ih (Nat.succ.inj hargs) (next + 1)))

/-- A variable has the type of its cell. -/
theorem Function.typeOf?_eq {source : Source} {f : Function} {inputs : List (Ty × Location)}
    (hin : f.parameters.mapM (lowerParameter source) = .ok inputs) {first next : Nat} {d : UInt64}
    {cell : Cell} (h : (spillCells next (f.arguments first inputs) {}).lookup? d = some cell) :
    f.typeOf? d = some cell.ty := by
  rw [lookup?_spillCells, Function.map_fst_arguments hin] at h
  simp only [Cells.lookup?, List.find?_nil, Option.map_none, Option.or_none,
    Option.map_eq_some_iff] at h
  obtain ⟨⟨p, k⟩, hfind, rfl⟩ := h
  have hreverse : f.parameters.reverse = (f.parameters.zipIdx next).reverse.map Prod.fst := by
    rw [List.map_reverse, List.zipIdx_map_fst]
  rw [typeOf?, hreverse, List.find?_map]
  simp only [Function.comp_def, hfind, Option.map_some]

/-- **The lines of a function come from its nodes.**

**Proof sketch.** By the two forms of the code: the stores of the parameters, then the return
alone, at the function, or the expression and the return, at the statement. -/
theorem FunctionSite.Of.code_origins {source : Source} {f : Function} {s : FunctionSite}
    (hof : s.Of source f) :
    List.Forall₂ (CodeLine.ComesFrom source) s.code.code
        (f.parameters.flatMap Parameter.origins ++ f.bodyOrigins) ∧
      source.Locates f.src s.code.location := by
  obtain ⟨location, inputs, results, hloc, hin, _, _, hsig, hplace, hcode⟩ :=
    Function.code_eq_ok hof
  have hspill : ∀ next, List.Forall₂ (CodeLine.ComesFrom source)
      (spillCode next (f.arguments s.first inputs)) (f.parameters.flatMap Parameter.origins) :=
    fun next => spillCode_origins hin (by simp) next
  refine ⟨?_, hplace ▸ Source.locates_of_locate hloc⟩
  rcases hcode with ⟨hreturns, _, hcode⟩ | ⟨p, e, src, place, body, v, hreturns, hbody, hat, he,
    hcode⟩
  · have horigins : f.bodyOrigins = [⟨.func .ret, .function f⟩] := by
      simp [Function.bodyOrigins, hreturns]
    rw [hcode, horigins]
    exact List.rel_append (hspill _) (.cons ⟨rfl, Source.locates_of_locate hloc⟩ .nil)
  · have horigins : f.bodyOrigins =
        e.origins f.typeOf? p.ty ++ [⟨.func .ret, .statement (.ret (some e) src)⟩] := by
      simp [Function.bodyOrigins, hreturns, hbody]
    rw [hcode, horigins]
    refine List.rel_append (hspill _) (List.rel_append ?_
      (.cons ⟨rfl, Source.locates_of_locate hat⟩ .nil))
    exact e.code_origins (fun d cell hcell => Function.typeOf?_eq hin hcell) he

/-! ## Conversions stand behind what they convert -/

/-- Whether an operation is an extension. -/
def OpKind.isExtension (k : OpKind) : Bool :=
  decide (k = .arith .extsi ∨ k = .arith .extui)

/-- An operation that is an extension converts the value of the operation before it, and has the
same place. -/
def Module.FollowsValue (m : Module) (p o : OpId) : Prop :=
  (m.kind o).isExtension = true →
    (m.op o).operands = (m.op p).results ∧ (m.op o).location = (m.op p).location

/-- Every extension converts the result of the line before it, and has the same place.  The first
result has number `next`; `last` is the value and the place of the line before. -/
def ExtendsPrevious : Option (ValueId × Location) → Nat → List CodeLine → Prop
  | _, _, [] => True
  | last, next, l :: code =>
    (∀ signed v ty, l.instr = .extend signed v ty → last = some (v, l.location)) ∧
      ExtendsPrevious (l.instr.result?.map fun _ => (⟨next⟩, l.location)) (next + l.instr.count)
        code

/-- Code is looked at part by part, if the second part does not start with an extension. -/
theorem ExtendsPrevious.append {last : Option (ValueId × Location)} {next : Nat}
    {code more : List CodeLine} (h : ExtendsPrevious last next code)
    (hmore : ∀ last, ExtendsPrevious last (next + codeCount code) more) :
    ExtendsPrevious last next (code ++ more) := by
  induction code generalizing last next with
  | nil => exact hmore last
  | cons l code ih =>
    refine ⟨h.1, ih h.2 fun last => ?_⟩
    rw [Nat.add_assoc, ← codeCount_cons]
    exact hmore last

/-- A line that is no extension, and the conversion of its result. -/
theorem extendsPrevious_convertCode {location : Location} {next : Nat} {w : ValueId}
    {own expected : SemanticType} {i : Instr} {more : List CodeLine} {ty : Ty}
    (hresult : i.result? = some ty) (hi : ∀ signed v ty, i ≠ .extend signed v ty)
    (h : convertCode location (next + 1) ⟨next⟩ own expected = .ok (more, w))
    (last : Option (ValueId × Location)) :
    ExtendsPrevious last next (⟨i, location⟩ :: more) := by
  refine ⟨fun signed v ty heq => absurd heq (hi signed v ty), ?_⟩
  rcases convertCode_eq_ok h with ⟨_, rfl, -⟩ | ⟨_, t, ty, _, _, _, _, _, rfl, -⟩
  · trivial
  · refine ⟨fun signed v ty' heq => ?_, trivial⟩
    obtain ⟨-, rfl, -⟩ : t.signed = signed ∧ (⟨next⟩ : ValueId) = v ∧ ty = ty' := by
      simpa using heq
    simp [hresult]

/-- Every extension of an expression's code converts the result of the line before it. -/
theorem Expression.extendsPrevious_code {source : Source} {cells : Cells} (e : Expression)
    {next : Nat} {expected : SemanticType} {code : List CodeLine} {v : ValueId}
    (h : e.code source cells next expected = .ok (code, v))
    (last : Option (ValueId × Location)) : ExtendsPrevious last next code := by
  induction e generalizing next expected code v last with
  | literal text ty src =>
    obtain ⟨location, lowered, n, more, _, _, _, hmore, rfl⟩ :=
      Expression.code_literal_eq_ok h
    exact extendsPrevious_convertCode rfl (by simp) hmore last
  | identifier name declaration ty src =>
    obtain ⟨location, cell, lowered, more, _, _, _, hmore, rfl⟩ :=
      Expression.code_identifier_eq_ok h
    exact extendsPrevious_convertCode rfl (by simp) hmore last
  | binary operator left right ty src ihl ihr =>
    obtain ⟨op, leftCode, lhs, rightCode, rhs, location, lowered, more, _, hleft, hright, _, _,
      hmore, rfl⟩ := Expression.code_binary_eq_ok h
    exact (ihl hleft last).append fun last => (ihr hright last).append fun last =>
      extendsPrevious_convertCode rfl (by simp) hmore last

/-- Nothing is extended while the cells are filled. -/
theorem extendsPrevious_spillCode (params : List (Parameter × ValueId × Ty × Location))
    (next : Nat) (last : Option (ValueId × Location)) :
    ExtendsPrevious last next (spillCode next params) := by
  induction params generalizing next last with
  | nil => trivial
  | cons q params ih =>
    exact ⟨fun _ _ _ heq => absurd heq (by simp), fun _ _ _ heq => absurd heq (by simp), ih _ _⟩

/-- Every extension of a function's code converts the result of the line before it. -/
theorem FunctionSite.Of.extendsPrevious {source : Source} {f : Function} {s : FunctionSite}
    (hof : s.Of source f) (last : Option (ValueId × Location)) :
    ExtendsPrevious last s.next s.code.code := by
  obtain ⟨location, inputs, results, _, _, _, _, hsig, _, hcode⟩ := Function.code_eq_ok hof
  have hnext : s.first + inputs.length = s.next := by
    rw [FunctionSite.next, hsig, List.length_map]
  have hret : ∀ values place last next,
      ExtendsPrevious last next [⟨.ret values, place⟩] :=
    fun _ _ _ _ => ⟨fun _ _ _ heq => absurd heq (by simp), trivial⟩
  have hspill := extendsPrevious_spillCode (f.arguments s.first inputs) s.next last
  rcases hcode with ⟨_, _, hcode⟩ | ⟨p, e, src, place, body, v, _, _, _, he, hcode⟩
  · rw [hcode, hnext]
    exact hspill.append fun last => hret _ _ last _
  · rw [hnext] at he hcode
    rw [hcode]
    exact hspill.append fun last => (e.extendsPrevious_code he last).append fun last =>
      hret _ _ last _

/-- Extensions are the instructions that extend. -/
theorem Instr.exists_extend {i : Instr} (h : i.kind.isExtension = true) :
    ∃ signed v ty, i = .extend signed v ty := by
  cases i with
  | extend signed v ty => exact ⟨signed, v, ty, rfl⟩
  | arith op => cases op <;> cases h
  | _ => cases h

/-- In a module that carries code, every extension follows the value that it converts. -/
theorem Module.Carries.isChain {m : Module} {b : BlockId} {next : Nat} {ids : List OpId}
    {code : List CodeLine} (h : m.Carries b next ids code) {last : Option (ValueId × Location)}
    (hcode : ExtendsPrevious last next code) {p : OpId}
    (hp : ∀ v location, last = some (v, location) →
      (m.op p).results = [v] ∧ (m.op p).location = location) :
    (p :: ids).IsChain m.FollowsValue := by
  induction h generalizing last p with
  | nil => exact .singleton p
  | @cons next id ids l code line _ ih =>
    refine List.isChain_cons_cons.2 ⟨fun hext => ?_, ih hcode.2 fun v location hlast => ?_⟩
    · rw [line.shows.kind] at hext
      obtain ⟨signed, v, ty, hl⟩ := Instr.exists_extend hext
      obtain ⟨hresults, hlocation⟩ := hp v l.location (hcode.1 signed v ty hl)
      rw [line.shows.operands, line.shows.location, hresults, hlocation, hl]
      exact ⟨rfl, rfl⟩
    · obtain ⟨ty, hty, heq⟩ := Option.map_eq_some_iff.1 hlast
      obtain ⟨rfl, rfl⟩ := Prod.mk.inj heq
      refine ⟨?_, line.shows.location⟩
      rw [line.op]
      simp [CodeLine.toOp, Instr.count, hty]

/-! ## Lowered modules -/

section Chain

variable {α β : Type} {R : α → α → Prop}

/-- Two lists form a chain behind each other if both form chains behind everything. -/
theorem isChain_cons_append {xs ys : List α} (hxs : ∀ p, (p :: xs).IsChain R)
    (hys : ∀ p, (p :: ys).IsChain R) (p : α) : (p :: (xs ++ ys)).IsChain R := by
  have hp := hxs p
  clear hxs
  induction xs generalizing p with
  | nil => exact hys p
  | cons x xs ih =>
    obtain ⟨hx, hrest⟩ := List.isChain_cons_cons.1 hp
    exact List.isChain_cons_cons.2 ⟨hx, ih x hrest⟩

/-- Lists that form chains behind everything form one chain. -/
theorem isChain_cons_flatMap {f : β → List α} {bs : List β}
    (h : ∀ b ∈ bs, ∀ p, (p :: f b).IsChain R) (p : α) : (p :: bs.flatMap f).IsChain R := by
  induction bs generalizing p with
  | nil => exact .singleton p
  | cons b bs ih =>
    exact isChain_cons_append (h b (by simp))
      (ih fun b' hb' => h b' (List.mem_cons_of_mem _ hb')) p

end Chain

/-- An operation has the kind that is expected, and the place of the node that it comes from. -/
structure Module.ComesFrom (m : Module) (source : Source) (o : OpId) (q : Origin) : Prop where
  kind : m.kind o = q.kind
  location : source.Locates q.node.range (m.op o).location

/-- A function and its lines come from the nodes of the function. -/
theorem FunctionSite.In.comesFrom {source : Source} {f : Function} {s : FunctionSite} {m : Module}
    {around : BlockId} (h : s.In m around) (hof : s.Of source f) :
    List.Forall₂ (m.ComesFrom source) (s.id :: s.ops) f.origins := by
  obtain ⟨hlines, hplace⟩ := hof.code_origins
  refine .cons ⟨h.kind_eq, ?_⟩ (forall₂_trans (fun o l q hshows hfrom => ?_) h.body.forall₂ hlines)
  · rw [h.op]
    exact hplace
  · exact ⟨hshows.kind.trans hfrom.kind, hshows.location ▸ hfrom.location⟩

/-- A contract, its functions and their lines come from the nodes of the contract. -/
theorem ContractSite.In.comesFrom {source : Source} {contract : Contract} {c : ContractSite}
    {m : Module} (h : c.In m) (hof : c.Of source contract) :
    List.Forall₂ (m.ComesFrom source) (c.id :: c.functions.flatMap fun s => s.id :: s.ops)
      contract.origins := by
  refine .cons ⟨?_, ?_⟩ ?_
  · rw [Module.kind, h.op]
    rfl
  · rw [h.op]
    exact Source.locates_of_locate hof.location
  · have hfunctions : List.Forall₂ (fun s f => s.In m c.body ∧ s.Of source f) c.functions
        contract.functions :=
      (List.forall₂_and_left _ _).2 ⟨fun s hs => (h.functions s hs).1, hof.functions.flip⟩
    exact List.rel_flatMap hfunctions fun s f hsf => hsf.1.comesFrom hsf.2

namespace Layout

variable {source : Source} {contracts : List Contract} {sites : List ContractSite} {m : Module}

/-- The operations of a lowered module come from the nodes of the contracts, in order. -/
theorem comesFrom (h : Layout source contracts sites m) :
    List.Forall₂ (m.ComesFrom source) m.walk (contracts.flatMap Contract.origins) := by
  have hsites : List.Forall₂ (fun c contract => c.In m ∧ c.Of source contract) sites contracts :=
    (List.forall₂_and_left _ _).2 ⟨h.sites, h.contracts.flip⟩
  rw [h.walk_eq]
  exact List.rel_flatMap hsites fun c contract hc => hc.1.comesFrom hc.2

/-- In a lowered module, every extension follows the value that it converts.

**Proof sketch.** The walk is the contracts, their functions and the code of these.  Only
extensions have something to follow, so the joints are free; within the code of a function the
line in front is the value that is converted. -/
theorem isChain_walk (h : Layout source contracts sites m) : m.walk.IsChain m.FollowsValue := by
  have hplain : ∀ {p o : OpId}, (m.kind o).isExtension = false → m.FollowsValue p o := by
    intro p o hkind hext
    rw [hkind] at hext
    cases hext
  have hfunction : ∀ c ∈ sites, ∀ s ∈ c.functions, ∀ p,
      (p :: s.id :: s.ops).IsChain m.FollowsValue := by
    intro c hc s hs p
    obtain ⟨contract, _, hof⟩ := Outcome.exists_left h.contracts hc
    obtain ⟨f, _, hf⟩ := Outcome.exists_left hof.functions hs
    have hin := ((h.sites c hc).functions s hs).1
    refine List.isChain_cons_cons.2 ⟨hplain (by rw [hin.kind_eq]; rfl), ?_⟩
    exact hin.body.isChain (hf.extendsPrevious none) fun _ _ hnone => absurd hnone (by simp)
  have hcontract : ∀ c ∈ sites, ∀ p,
      (p :: c.id :: c.functions.flatMap fun s => s.id :: s.ops).IsChain m.FollowsValue := by
    intro c hc p
    refine List.isChain_cons_cons.2 ⟨hplain ?_, isChain_cons_flatMap (hfunction c hc) c.id⟩
    rw [Module.kind, (h.sites c hc).op]
    rfl
  rw [h.walk_eq]
  exact (isChain_cons_flatMap hcontract default).of_cons

end Layout

/-- **Every operation of a lowered module has the place that it comes from.**  A walk meets the
operations of the nodes in order; each has the kind that its node is compiled to, and the line and
the column at which the text of the node starts.  Every extension converts the value of the
operation before it.  So no place is unknown.

**Proof sketch.** The walk lists the contracts, each with its functions, each with its lines
(`Layout.walk_eq`).  The lines of a function come from its nodes (`FunctionSite.Of.code_origins`),
by induction on the expression that it returns (`Expression.code_origins`). -/
theorem lowerContracts_located {source : Source} {contracts : List Contract} {m : Module}
    (h : lowerContracts source contracts = .ok m) :
    List.Forall₂ (m.ComesFrom source) m.walk (contracts.flatMap Contract.origins) ∧
      m.walk.IsChain m.FollowsValue ∧ ∀ o ∈ m.walk, (m.op o).location ≠ .unknown := by
  obtain ⟨-, sites, hlayout⟩ := layout_of_lowerContracts h
  refine ⟨hlayout.comesFrom, hlayout.isChain_walk, fun o ho hunknown => ?_⟩
  obtain ⟨q, _, hfrom⟩ := Outcome.exists_right hlayout.comesFrom ho
  obtain ⟨line, column, _, hknown⟩ := hfrom.location
  rw [hunknown] at hknown
  cases hknown

/-- A text of two lines, the second of which has two characters. -/
def twoLines : Source where
  name := "C.sol"
  bytes := 4
  lines := splitLines ['x', '\n', 'y', 'z']

/-- The function `f(int8 a) returns (int16) { return a; }`: the function starts in the first line,
its parameter and its body in the second one. -/
def placedFunction : Function where
  name := "f"
  parameters := [{ declaration := 1, name := "a", ty := .integer ⟨8, true⟩, src := ⟨2, 1⟩ }]
  returns := [{ declaration := 2, ty := .integer ⟨16, true⟩, src := ⟨2, 1⟩ }]
  body := [.ret (some (.identifier "a" 1 (.integer ⟨8, true⟩) ⟨3, 1⟩)) ⟨2, 2⟩]
  src := ⟨1, 3⟩

/-- A contract with this function. -/
def placedContract : Contract where
  name := "C"
  functions := [placedFunction]
  src := ⟨0, 4⟩

/-- The operations of the contract with their places. -/
theorem placedContract_located :
    ∃ m, lowerContracts twoLines [placedContract] = .ok m ∧
      List.Forall₂ (m.ComesFrom twoLines) m.walk placedContract.origins ∧
      placedContract.origins.map (fun q =>
        (q.kind, (twoLines.position q.node.range.start.toNat).toOption)) =
          [(.sol .contract, some (1, 1)), (.func .func, some (1, 2)),
            (.memref .alloca, some (2, 1)), (.memref .store, some (2, 1)),
            (.memref .load, some (2, 2)), (.arith .extsi, some (2, 2)),
            (.func .ret, some (2, 1))] := by
  obtain ⟨m, h⟩ : ∃ m, lowerContracts twoLines [placedContract] = .ok m :=
    Outcome.exists_of_isOk (by decide +kernel)
  exact ⟨m, h, (lowerContracts_located h).1, by decide +kernel⟩

end ContractIR
