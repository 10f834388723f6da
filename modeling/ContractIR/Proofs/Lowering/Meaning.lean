import ContractIR.Proofs.Semantics.Numbers

/-!
# What lowered code computes

Every value that the code of an expression leaves is the last digits of a number.  The number is
found by recursion on the expression: arithmetic is exact, and where a value is widened its digits
are read again, with the sign of the type that it is widened to.  Nothing is assumed about the types
in the expression here; whether the number is the one that was meant is another question.

## Main definitions

* `ContractIR.Reaches` — code runs from one frame to another one.
* `ContractIR.SemanticType.reread` — what a conversion does to a number.
* `ContractIR.Expression.meaning` — the number that the code of an expression computes.
* `ContractIR.Environment` — types and values of variables, `ContractIR.Cells.Hold` — cells that
  hold them.

## Main results

* `ContractIR.Expression.code_runs` — the code of an expression runs, and leaves its meaning.
* `ContractIR.Function.code_runs` — the code of a function runs, and returns the meaning of the
  expression that it returns.
-/

set_option autoImplicit false

namespace ContractIR

/-! ## Runs of code -/

/-- Code, with results numbered from `next` on, runs from one frame to another one. -/
def Reaches (next : Nat) (code : List CodeLine) (s t : Frame) : Prop :=
  ∀ rest, execCode next (code ++ rest) s = execCode (next + codeCount code) rest t

namespace Reaches

variable {next : Nat} {s t u : Frame}

/-- No code leads nowhere else. -/
theorem refl (next : Nat) (s : Frame) : Reaches next [] s s := fun _ => rfl

/-- One line. -/
theorem line {l : CodeLine} (h : l.instr.exec (l.results next) s = some (.next t)) :
    Reaches next [l] s t := by
  intro rest
  rw [List.singleton_append, execCode, h, Option.bind_eq_bind, Option.bind_some, codeCount_cons,
    codeCount_nil]
  rfl

/-- One stretch of code after another. -/
theorem append {code more : List CodeLine} (h : Reaches next code s t)
    (k : Reaches (next + codeCount code) more t u) : Reaches next (code ++ more) s u := by
  intro rest
  rw [List.append_assoc, h, k, codeCount_append, Nat.add_assoc]

/-- A line, then more code. -/
theorem cons {l : CodeLine} {more : List CodeLine}
    (h : l.instr.exec (l.results next) s = some (.next t))
    (k : Reaches (next + l.instr.count) more t u) : Reaches next (l :: more) s u := by
  have hrest : Reaches (next + codeCount [l]) more t u := by simpa using k
  exact (line h).append hrest

end Reaches

/-- Two frames agree on the values below a number and on all slots. -/
structure Frame.Agree (s t : Frame) (next : Nat) : Prop where
  values : ∀ v : ValueId, v.index < next → t.values v = s.values v
  slots : t.slots = s.slots

namespace Frame.Agree

variable {s t u : Frame} {next more : Nat}

/-- A frame agrees with itself. -/
theorem refl (s : Frame) (next : Nat) : s.Agree s next := ⟨fun _ _ => rfl, rfl⟩

/-- Agreement is transitive, up to the lower number. -/
theorem trans (h : s.Agree t next) (k : t.Agree u more) (hle : next ≤ more) : s.Agree u next :=
  ⟨fun v hv => (k.values v (Nat.lt_of_lt_of_le hv hle)).trans (h.values v hv),
    k.slots.trans h.slots⟩

/-- A value that is given has a number that is not below. -/
theorem set (s : Frame) (next : Nat) (d : Datum) : s.Agree (s.set ⟨next⟩ d) next := by
  refine ⟨fun v hv => s.values_set_of_ne d ?_, rfl⟩
  rintro rfl
  exact Nat.lt_irrefl _ hv

end Frame.Agree

/-- The word that a value is. -/
theorem Frame.word?_eq {s : Frame} {v : ValueId} {w : Word} (h : s.values v = some (.word w)) :
    s.word? v = some w := by
  rw [Frame.word?, h]

/-- The address that a value is. -/
theorem Frame.address?_eq {s : Frame} {v : ValueId} {a : Nat}
    (h : s.values v = some (.address a)) : s.address? v = some a := by
  rw [Frame.address?, h]

/-! ## Conversions -/

/-- What a conversion makes of a number: where types are compiled alike it stays the same, else its
digits are read again, with the sign of the new type. -/
def SemanticType.reread (own expected : SemanticType) (n : Int) : Int :=
  if isIdentityCast own expected then n
  else
    match own.interpretation?, expected.interpretation? with
    | some s, some t => IntegerType.wrap ⟨s.bits, t.signed⟩ n
    | _, _ => n

/-- A value holds the last digits of a number, in the width that a type is compiled in. -/
def Frame.Holds (s : Frame) (v : ValueId) (ty : SemanticType) (n : Int) : Prop :=
  ∃ w, Lowers ty (.int w) ∧ s.values v = some (.word (.ofInt w n))

/-- **The code of a conversion runs**, and leaves the number that the conversion makes.

**Proof sketch.** Without code the value stays and is read as it was.  With an extension, it is
read with the sign of the target and written in the target's width (`Word.extend_ofInt`). -/
theorem convertCode_runs {location : Location} {next : Nat} {v w : ValueId}
    {own expected : SemanticType} {code : List CodeLine} {s : Frame} {n : Int}
    (h : convertCode location next v own expected = .ok (code, w)) (hv : s.Holds v own n)
    (hlt : v.index < next) :
    ∃ t, Reaches next code s t ∧ t.Holds w expected (own.reread expected n) ∧
      w.index < next + codeCount code ∧ s.Agree t next := by
  obtain ⟨k, hown, hvalue⟩ := hv
  rcases convertCode_eq_ok h with ⟨hid, rfl, rfl⟩ |
    ⟨a, b, ty, hid, ha, hb, hwidth, hty, rfl, rfl⟩
  · refine ⟨s, .refl next s, ⟨k, hown.of_isIdentityCast hid, ?_⟩, by simpa using hlt, .refl s next⟩
    rw [SemanticType.reread, if_pos hid, hvalue]
  · obtain ⟨htarget, b', hb', rfl⟩ := lowerType_eq_ok hty
    obtain ⟨a', ha', hka⟩ := (lowerType_eq_ok (hown location)).2
    obtain rfl : b = b' := by simpa [hb] using hb'
    obtain rfl : a = a' := by simpa [ha] using ha'
    obtain rfl : k = a.bits.toNat := by simpa using hka
    have hreread : own.reread expected n = IntegerType.wrap ⟨a.bits, b.signed⟩ n := by
      simp [SemanticType.reread, hid, ha, hb]
    have hexec : (Instr.extend b.signed v (.int b.bits.toNat)).exec [⟨next⟩] s =
        some (.next (s.set ⟨next⟩ (.word (.ofInt b.bits.toNat (own.reread expected n))))) := by
      simp only [Instr.exec, Frame.word?_eq hvalue, Option.bind_eq_bind, Option.bind_some,
        Word.extend_ofInt b.signed hwidth n, hreread]
    refine ⟨_, .line hexec, ⟨_, htarget, s.values_set_self _ _⟩, ?_, .set s next _⟩
    simp [Instr.count, Instr.result?]

/-! ## Expressions -/

/-- The types and values of variables, by declaration. -/
abbrev Environment := UInt64 → Option (SemanticType × Int)

/-- The number that the code of an expression in a type computes. -/
def Expression.meaning (env : Environment) : Expression → SemanticType → Option Int
  | .literal _ ty _, expected => do
    let n ← ty.wholeValue?
    return (literalTarget ty expected).reread expected n
  | .identifier _ declaration _ _, expected => do
    let (ty, n) ← env declaration
    return ty.reread expected n
  | .binary operator left right ty _, expected => do
    let op ← operator.arithmetic?
    let a ← left.meaning env ty
    let b ← right.meaning env ty
    return ty.reread expected (op.eval a b)

/-- Every bound cell is a slot that holds the value of its variable; its address has a number below
`next`. -/
def Cells.Hold (cells : Cells) (env : Environment) (s : Frame) (next : Nat) : Prop :=
  ∀ declaration cell, cells.lookup? declaration = some cell →
    ∃ w n a, Lowers cell.ty (.int w) ∧ env declaration = some (cell.ty, n) ∧
      cell.address.index < next ∧ s.values cell.address = some (.address a) ∧
      s.slots[a]? = some ⟨.int w, some (.ofInt w n)⟩

/-- Cells hold what they hold while code computes further values. -/
theorem Cells.Hold.mono {cells : Cells} {env : Environment} {s t : Frame} {next more : Nat}
    (h : cells.Hold env s next) (hagree : s.Agree t next) (hle : next ≤ more) :
    cells.Hold env t more := by
  intro declaration cell hcell
  obtain ⟨w, n, a, hty, henv, hlt, hvalue, hslot⟩ := h declaration cell hcell
  refine ⟨w, n, a, hty, henv, Nat.lt_of_lt_of_le hlt hle, ?_, by rw [hagree.slots, hslot]⟩
  rw [hagree.values _ hlt, hvalue]

/-- **The code of an expression runs, and leaves its meaning.**

**Proof sketch.** Induction on the expression.  A literal leaves its digits in the type in which it
is written, a variable what its cell holds.  The operands of arithmetic leave their meanings in the
type of the operation, and the right one does not touch what the left one left; their sum or product
has the digits of the exact one (`Word.apply_ofInt`).  What remains is the conversion
(`convertCode_runs`). -/
theorem Expression.code_runs {source : Source} {cells : Cells} {env : Environment}
    (e : Expression) {next : Nat} {expected : SemanticType} {code : List CodeLine} {v : ValueId}
    {s : Frame} (h : e.code source cells next expected = .ok (code, v))
    (hcells : cells.Hold env s next) :
    ∃ n t, e.meaning env expected = some n ∧ Reaches next code s t ∧ t.Holds v expected n ∧
      v.index < next + codeCount code ∧ s.Agree t next := by
  induction e generalizing next expected code v s with
  | literal text ty src =>
    obtain ⟨location, lowered, n, more, _, hlow, hn, hmore, rfl⟩ :=
      Expression.code_literal_eq_ok h
    obtain ⟨htarget, t, _, rfl⟩ := lowerType_eq_ok hlow
    have hset := s.values_set_self ⟨next⟩ (.word (.ofInt t.bits.toNat n))
    obtain ⟨u, hrun, hholds, hlt, hagree⟩ :=
      convertCode_runs hmore ⟨_, htarget, hset⟩ (Nat.lt_succ_self _)
    refine ⟨_, u, by simp [Expression.meaning, hn], .cons rfl hrun, hholds, ?_,
      (Frame.Agree.set s next _).trans hagree (Nat.le_succ _)⟩
    rwa [codeCount_cons, ← Nat.add_assoc]
  | identifier name declaration ty src =>
    obtain ⟨location, cell, lowered, more, _, hcell, hlow, hmore, rfl⟩ :=
      Expression.code_identifier_eq_ok h
    obtain ⟨w, n, a, hty, henv, _, hvalue, hslot⟩ := hcells declaration cell hcell
    obtain rfl : Ty.int w = lowered := by simpa [hty location] using hlow
    have hexec : (Instr.load cell.address (.int w)).exec [⟨next⟩] s =
        some (.next (s.set ⟨next⟩ (.word (.ofInt w n)))) := by
      simp [Instr.exec, Frame.address?_eq hvalue, hslot]
    have hset := s.values_set_self ⟨next⟩ (.word (.ofInt w n))
    obtain ⟨u, hrun, hholds, hlt, hagree⟩ :=
      convertCode_runs hmore ⟨_, hty, hset⟩ (Nat.lt_succ_self _)
    refine ⟨_, u, by simp [Expression.meaning, henv], .cons hexec hrun, hholds, ?_,
      (Frame.Agree.set s next _).trans hagree (Nat.le_succ _)⟩
    rwa [codeCount_cons, ← Nat.add_assoc]
  | binary operator left right ty src ihl ihr =>
    obtain ⟨op, leftCode, lhs, rightCode, rhs, location, lowered, more, hop, hleft, hright, _,
      hlow, hmore, rfl⟩ := Expression.code_binary_eq_ok h
    obtain ⟨a, t, ha, hrunl, ⟨w, hw, hlhs⟩, hltl, hagreel⟩ := ihl hleft hcells
    obtain ⟨b, u, hb, hrunr, ⟨w', hw', hrhs⟩, hltr, hagreer⟩ :=
      ihr hright (hcells.mono hagreel (Nat.le_add_right _ _))
    obtain rfl : w = w' := by simpa [hw .unknown] using hw' .unknown
    obtain rfl : Ty.int w = lowered := by simpa [hw location] using hlow
    have hlhs' : u.values lhs = some (.word (.ofInt w a)) := by rw [hagreer.values _ hltl, hlhs]
    generalize hk : next + codeCount leftCode + codeCount rightCode = k at *
    have hexec : (Instr.arith op lhs rhs (.int w)).exec [⟨k⟩] u =
        some (.next (u.set ⟨k⟩ (.word (.ofInt w (op.eval a b))))) := by
      simp [Instr.exec, Frame.word?_eq hlhs', Frame.word?_eq hrhs, Word.apply_ofInt]
    have hset := u.values_set_self ⟨k⟩ (.word (.ofInt w (op.eval a b)))
    obtain ⟨x, hrun, hholds, hlt, hagree⟩ :=
      convertCode_runs hmore ⟨_, hw, hset⟩ (Nat.lt_succ_self _)
    have hrest : Reaches k (⟨.arith op lhs rhs (.int w), location⟩ :: more) u x :=
      .cons hexec hrun
    have hagreek := (Frame.Agree.set u k (.word (.ofInt w (op.eval a b)))).trans hagree
      (Nat.le_succ _)
    refine ⟨_, x, by simp [Expression.meaning, hop, ha, hb],
      hrunl.append (hrunr.append (hk ▸ hrest)), hholds, ?_, ?_⟩
    · simp only [codeCount_append, codeCount_cons, Instr.count, Instr.result?, Option.toList_some,
        List.length_singleton]
      omega
    · exact (hagreel.trans hagreer (by omega)).trans hagreek (by omega)

/-! ## Parameters -/

/-- The environment after a parameter got a value; the last one of a declaration counts. -/
def Environment.bind (env : Environment) (p : Parameter) (n : Int) : Environment := fun d =>
  if d = p.declaration then some (p.ty, n) else env d

/-- The environment after parameters got their values, one after the other. -/
def Environment.bindAll : Environment → List Parameter → List Int → Environment
  | env, p :: ps, n :: ns => bindAll (env.bind p n) ps ns
  | env, _, _ => env

/-- An argument that stands at its value, in the width that the parameter is compiled in. -/
def Frame.HasArgument (s : Frame) (next : Nat) (q : Parameter × ValueId × Ty × Location)
    (n : Int) : Prop :=
  ∃ w, q.2.2.1 = .int w ∧ Lowers q.1.ty (.int w) ∧ q.2.1.index < next ∧
    s.values q.2.1 = some (.word (.ofInt w n))

/-- A frame in which an argument was stored in a cell of its own. -/
def Frame.spill (s : Frame) (cell : ValueId) (w : Nat) (n : Int) : Frame where
  values := (s.set cell (.address s.slots.length)).values
  slots := s.slots ++ [⟨.int w, some (.ofInt w n)⟩]

/-- Making a cell and storing an argument in it. -/
theorem reaches_spill (location : Location) {next : Nat} {s : Frame} {arg : ValueId} {w : Nat}
    {n : Int} (hlt : arg.index < next)
    (harg : s.values arg = some (.word (.ofInt w n))) :
    Reaches next [⟨.alloca (.int w), location⟩, ⟨.store arg ⟨next⟩, location⟩] s
      (s.spill ⟨next⟩ w n) := by
  have hne : arg ≠ ⟨next⟩ := by
    rintro rfl
    exact Nat.lt_irrefl _ hlt
  have hstore : (Instr.store arg ⟨next⟩).exec []
      { s.set ⟨next⟩ (.address s.slots.length) with slots := s.slots ++ [⟨.int w, none⟩] } =
        some (.next (s.spill ⟨next⟩ w n)) := by
    simp [Instr.exec, Frame.word?, Frame.address?, Frame.values_set_of_ne _ _ hne, harg,
      Frame.spill]
  exact .cons rfl (.line hstore)

/-- Cells hold what they hold while another cell is filled, which holds its argument.

**Proof sketch.** The new cell has a slot of its own at the end, which holds the argument; any
other cell has a smaller number and an older slot. -/
theorem Cells.Hold.spill {cells : Cells} {env : Environment} {s : Frame} {next w : Nat} {n : Int}
    (h : cells.Hold env s next) {p : Parameter} (hty : Lowers p.ty (.int w)) :
    (cells.bind p.declaration ⟨⟨next⟩, p.ty⟩).Hold (env.bind p n) (s.spill ⟨next⟩ w n)
      (next + 1) := by
  intro declaration cell hcell
  rw [Cells.lookup?_bind] at hcell
  split at hcell
  · rename_i hd
    cases hcell
    exact ⟨w, n, s.slots.length, hty, by simp [Environment.bind, hd], Nat.lt_succ_self _,
      by simp [Frame.spill], by simp [Frame.spill]⟩
  · rename_i hd
    obtain ⟨w', n', a, hty', henv, hlt, hvalue, hslot⟩ := h declaration cell hcell
    have hne : cell.address ≠ ⟨next⟩ := fun hc => Nat.ne_of_lt hlt (congrArg ValueId.index hc)
    refine ⟨w', n', a, hty', by simp [Environment.bind, hd, henv], Nat.lt_succ_of_lt hlt, ?_, ?_⟩
    · simpa [Frame.spill, Frame.values_set_of_ne _ _ hne] using hvalue
    · have ha := (List.getElem?_eq_some_iff.1 hslot).1
      simp only [Frame.spill]
      rw [List.getElem?_append_left ha, hslot]

/-- **Storing the arguments in cells runs**, and the cells hold them.

**Proof sketch.** Induction on the parameters.  Storing one argument fills its cell
(`Cells.Hold.spill`) and leaves the other arguments where they are, since cells are numbered past
them. -/
theorem spillCode_runs {params : List (Parameter × ValueId × Ty × Location)} {ns : List Int}
    {next : Nat} {s : Frame} {cells : Cells} {env : Environment}
    (hargs : List.Forall₂ (s.HasArgument next) params ns) (hcells : cells.Hold env s next) :
    ∃ t, Reaches next (spillCode next params) s t ∧
      (spillCells next params cells).Hold (env.bindAll (params.map Prod.fst) ns) t
        (next + codeCount (spillCode next params)) := by
  induction params generalizing ns next s cells env with
  | nil =>
    cases hargs
    exact ⟨s, .refl next s, hcells⟩
  | cons q params ih =>
    cases hargs with
    | @cons _ n _ ns hq hrest =>
      obtain ⟨p, arg, ty, location⟩ := q
      obtain ⟨w, rfl, hty, hlt, harg⟩ := hq
      have hspill := reaches_spill location hlt harg
      have hlater : List.Forall₂ ((s.spill ⟨next⟩ w n).HasArgument (next + 1)) params ns := by
        refine hrest.imp fun q' n' hq' => ?_
        obtain ⟨w', hty', hlow', hlt', harg'⟩ := hq'
        have hne : q'.2.1 ≠ ⟨next⟩ := fun hc => Nat.ne_of_lt hlt' (congrArg ValueId.index hc)
        refine ⟨w', hty', hlow', Nat.lt_succ_of_lt hlt', ?_⟩
        simpa [Frame.spill, Frame.values_set_of_ne _ _ hne] using harg'
      obtain ⟨t, hrun, hhold⟩ := ih hlater (hcells.spill hty)
      refine ⟨t, hspill.append hrun, ?_⟩
      simp only [codeCount_spillCode] at hhold ⊢
      rw [show next + ((p, arg, Ty.int w, location) :: params).length =
        next + 1 + params.length by simp; omega]
      exact hhold

/-! ## Functions -/

/-- A word is what a number is written as, for a parameter. -/
structure Encodes (p : Parameter) (n : Int) (w : Word) : Prop where
  lowers : Lowers p.ty w.ty
  word : w = .ofInt w.width n

/-- The arguments of a function that was just called. -/
theorem values_enter (first : Nat) (words : List Word) (i : Nat) :
    (Frame.enter ((List.range words.length).map fun i => ⟨first + i⟩) words).values ⟨first + i⟩ =
      words[i]?.map .word := by
  rcases Nat.lt_or_ge i words.length with hlt | hge
  · have hindex : ((List.range words.length).map fun i => (⟨first + i⟩ : ValueId)).idxOf?
        ⟨first + i⟩ = some i := by
      rw [List.idxOf?_eq_some_iff]
      refine ⟨by simpa using hlt, by simp, fun j hj heq => ?_⟩
      have hij : first + j = first + i := by simpa using heq
      omega
    simp [Frame.enter, hindex]
  · have hindex : ((List.range words.length).map fun i => (⟨first + i⟩ : ValueId)).idxOf?
        ⟨first + i⟩ = none := by
      rw [List.idxOf?_eq_none_iff]
      simp
      omega
    simp [Frame.enter, hindex, List.getElem?_eq_none hge]

/-- The words of a call have the types that the parameters are compiled in. -/
theorem types_of_encodes {source : Source} {ps : List Parameter} {inputs : List (Ty × Location)}
    {ns : List Int} {words : List Word} (hin : ps.mapM (lowerParameter source) = .ok inputs)
    (hlen : ns.length = ps.length)
    (hargs : List.Forall₂ (fun q w => Encodes q.1 q.2 w) (ps.zip ns) words) :
    words.map Word.ty = inputs.map Prod.fst := by
  have hinputs := length_of_mapM hin
  have hwords := hargs.length_eq
  simp only [List.length_zip] at hwords
  refine List.ext_getElem (by simp; omega) fun i hi hi' => ?_
  simp only [List.length_map] at hi hi'
  have hip : i < ps.length := by omega
  have henc := (List.forall₂_iff_get.1 hargs).2 i (by simp; omega) hi
  simp only [List.get_eq_getElem, List.getElem_zip] at henc
  have hlow := lowers_of_mapM hin (List.getElem?_eq_getElem hip) (List.getElem?_eq_getElem hi')
  simpa [henc.lowers .unknown] using hlow .unknown

/-- The words of a call are the arguments that the code stores.

**Proof sketch.** Place by place: the lists have one length, and the word at a place has the type
of the parameter there (`types_of_encodes`). -/
theorem Function.hasArguments (first : Nat) {source : Source} {f : Function}
    {inputs : List (Ty × Location)} {ns : List Int} {words : List Word}
    (hin : f.parameters.mapM (lowerParameter source) = .ok inputs)
    (hlen : ns.length = f.parameters.length)
    (hargs : List.Forall₂ (fun q w => Encodes q.1 q.2 w) (f.parameters.zip ns) words) :
    List.Forall₂ ((Frame.enter ((List.range inputs.length).map fun i => ⟨first + i⟩)
      words).HasArgument (first + inputs.length)) (f.arguments first inputs) ns := by
  have hinputs := length_of_mapM hin
  have htypes := types_of_encodes hin hlen hargs
  have hwords : words.length = inputs.length := by simpa using congrArg List.length htypes
  refine List.forall₂_iff_get.2 ⟨by simp [Function.arguments]; omega, fun i hi hi' => ?_⟩
  have hip : i < f.parameters.length := by omega
  have hii : i < inputs.length := by omega
  have hiw : i < words.length := by omega
  have henc := (List.forall₂_iff_get.1 hargs).2 i (by simp; omega) hiw
  simp only [List.get_eq_getElem, List.getElem_zip] at henc
  have hty : inputs[i].1 = .int words[i].width := by
    have := congrArg (fun l => l[i]?) htypes
    simpa [hii, hiw, Word.ty, eq_comm] using this
  refine ⟨words[i].width, ?_, ?_, ?_, ?_⟩
  · simpa [Function.arguments] using hty
  · simpa [Function.arguments, Word.ty] using henc.lowers
  · simp only [Function.arguments, List.get_eq_getElem, List.getElem_zip, List.getElem_map,
      List.getElem_range]
    omega
  · simp only [Function.arguments, List.get_eq_getElem, List.getElem_zip, List.getElem_map,
      List.getElem_range]
    rw [← hwords, values_enter, List.getElem?_eq_getElem hiw, Option.map_some]
    exact congrArg (fun w => some (Datum.word w)) henc.word

/-- The environment in which a function is called. -/
def Function.environment (f : Function) (ns : List Int) : Environment :=
  Environment.bindAll (fun _ => none) f.parameters ns

/-- A return at the end of code that ran. -/
theorem Reaches.execCode_ret {next : Nat} {code : List CodeLine} {s t : Frame}
    {values : List ValueId} {words : List Word} {location : Location}
    (h : Reaches next code s t) (hvalues : values.mapM t.word? = some words) :
    execCode next (code ++ [⟨.ret values, location⟩]) s = some words := by
  have hexec : (Instr.ret values).exec [] t = some (.returned words) := by
    simp [Instr.exec, hvalues]
  rw [h, execCode]
  simp only [CodeLine.results, Instr.count, Instr.result?, Option.toList_none, List.length_nil,
    List.range_zero, List.map_nil, hexec, Option.bind_eq_bind, Option.bind_some]

/-- **The code of a function runs.**  A function without a result returns nothing; one with a result
returns the digits of the meaning of the expression that it returns.

**Proof sketch.** First the arguments are stored (`spillCode_runs`), from no cells at all, so
that the cells hold the arguments.  By the two forms of the code: nothing is returned, or the
expression runs (`Expression.code_runs`) and its value is returned. -/
theorem Function.code_runs {source : Source} {f : Function} {first : Nat} {c : FunctionCode}
    {ns : List Int} {words : List Word} (h : f.code source first = .ok c)
    (hlen : ns.length = f.parameters.length)
    (hargs : List.Forall₂ (fun q w => Encodes q.1 q.2 w) (f.parameters.zip ns) words) :
    words.map Word.ty = c.signature.inputs ∧
    ((f.returns = [] ∧ execCode (first + c.signature.inputs.length) c.code
        (.enter ((List.range c.signature.inputs.length).map fun i => ⟨first + i⟩) words) =
          some []) ∨
      ∃ p e src w n, f.returns = [p] ∧ f.body = [.ret (some e) src] ∧ Lowers p.ty (.int w) ∧
        e.meaning (f.environment ns) p.ty = some n ∧
        execCode (first + c.signature.inputs.length) c.code
          (.enter ((List.range c.signature.inputs.length).map fun i => ⟨first + i⟩) words) =
            some [.ofInt w n]) := by
  obtain ⟨location, inputs, results, _, hin, _, _, hsig, _, hcode⟩ := Function.code_eq_ok h
  have hfilled := Function.hasArguments first hin hlen hargs
  have hempty : Cells.Hold {} (fun _ => none)
      (.enter ((List.range inputs.length).map fun i => ⟨first + i⟩) words)
      (first + inputs.length) := by
    intro d cell hcell
    simp [Cells.lookup?] at hcell
  obtain ⟨t, hrun, hhold⟩ := spillCode_runs hfilled hempty
  have hparams : (f.arguments first inputs).map Prod.fst = f.parameters := by
    have := length_of_mapM hin
    rw [Function.arguments, List.map_fst_zip (by simp; omega)]
  rw [hparams] at hhold
  rw [hsig]
  simp only [List.length_map]
  refine ⟨?_, ?_⟩
  · exact types_of_encodes hin hlen hargs
  · rcases hcode with ⟨hret, _, hcode⟩ | ⟨p, e, src, place, body, v, hret, hbody, _, he, hcode⟩
    · refine .inl ⟨hret, ?_⟩
      rw [hcode]
      exact hrun.execCode_ret rfl
    · obtain ⟨n, u, hmeaning, hrun', ⟨w, hw, hv⟩, _⟩ := e.code_runs he hhold
      refine .inr ⟨p, e, src, w, n, hret, hbody, hw, hmeaning, ?_⟩
      rw [hcode, ← List.append_assoc]
      refine (hrun.append hrun').execCode_ret ?_
      simp [Frame.word?_eq hv]

end ContractIR
