import ContractIR.Verifier
import ContractIR.Proofs.Module.Reachable

/-!
# Definition before use on execution paths

The verifier looks at the blocks and regions around a use and computes no dominators.  This
suffices: whichever branches an execution takes through a function that the verifier accepts, an
operation reads only what was defined on the way to it.

## Main definitions

* `ContractIR.Module.BranchesTo` — a block ends with a branch to another one.
* `ContractIR.Module.ExecutionPath` — the blocks that an execution of a function runs through.
* `ContractIR.Module.KnownOnPath` — a value is defined on the way to an operation.

## Main results

* `ContractIR.Module.ExecutionPath.mem_blocks` — execution stays in the region of the function.
* `ContractIR.known_on_every_path` — every operand is defined on every path to its operation.
-/

set_option autoImplicit false

namespace ContractIR

/-- Whether operations of this kind go on in another block of their region. -/
def OpKind.isBranch : OpKind → Bool
  | .llvm .br | .llvm .condBr => true
  | _ => false

namespace Module

variable {m : Module}

/-! ## What an accepted module satisfies -/

/-- A condition that is asked for holds. -/
theorem require_eq_ok {id : OpId} {condition : Bool} {fault : OpFault} :
    m.require id condition fault = .ok () ↔ condition = true := by
  unfold require reject
  split <;> simp_all

/-- What is demanded is what was found. -/
theorem demand_eq_ok {α : Type} {id : OpId} {found : Option α} {fault : OpFault} {a : α} :
    m.demand id found fault = .ok a ↔ found = some a := by
  cases found <;> simp [demand, reject]

/-- The check of numbers. -/
theorem verifyCounts_eq_ok_iff {id : OpId} {operands results regions : Nat} :
    m.verifyCounts id operands results regions = .ok () ↔ (m.op id).operands.length = operands ∧
      (m.op id).results.length = results ∧ (m.op id).regions.length = regions := by
  simp only [verifyCounts, Outcome.bind_unit_eq_ok, require_eq_ok, decide_eq_true_eq]

/-- If a check of every member of a list passes, each check does. -/
theorem of_verifyEach {check : OpId → Check Unit} {ids : List OpId}
    (h : verifyEach check ids = .ok ()) {id : OpId} (hid : id ∈ ids) : check id = .ok () := by
  induction ids with
  | nil => cases hid
  | cons o ids ih =>
    obtain ⟨⟨⟩, hcheck, hrest⟩ := Outcome.bind_eq_ok.1 h
    rcases List.mem_cons.1 hid with rfl | hid
    · exact hcheck
    · exact ih hrest hid

/-- A check of every member of a list passes if it passes for each. -/
theorem verifyEach_eq_ok {check : OpId → Check Unit} {ids : List OpId}
    (h : ∀ id ∈ ids, check id = .ok ()) : verifyEach check ids = .ok () := by
  induction ids with
  | nil => rfl
  | cons id ids ih =>
    rw [verifyEach, h id (by simp), Outcome.ok_bind]
    exact ih fun o ho => h o (List.mem_cons_of_mem _ ho)

/-- If the check of operands passes, each of them is defined. -/
theorem of_verifyDominance {id : OpId} {vs : List ValueId} {index : Nat}
    (h : m.verifyDominance id index vs = .ok ()) {v : ValueId} (hv : v ∈ vs) :
    m.dominates v id = true := by
  induction vs generalizing index with
  | nil => cases hv
  | cons w vs ih =>
    rw [verifyDominance] at h
    split at h
    · rename_i hw
      rcases List.mem_cons.1 hv with rfl | hv
      · exact hw
      · exact ih h hv
    · cases h

/-- If all of some values are defined at an operation, the check of its operands passes. -/
theorem verifyDominance_eq_ok {id : OpId} {vs : List ValueId}
    (h : ∀ v ∈ vs, m.dominates v id = true) (index : Nat) :
    m.verifyDominance id index vs = .ok () := by
  induction vs generalizing index with
  | nil => rfl
  | cons v vs ih =>
    rw [verifyDominance, if_pos (h v (by simp))]
    exact ih (fun w hw => h w (List.mem_cons_of_mem _ hw)) _

/-- Every operation of an accepted module satisfies its rule, and its operands are defined. -/
theorem of_verify (h : m.verify = .ok ()) {o : OpId} (ho : o ∈ m.walk) :
    m.verifyOp o = .ok () ∧ ∀ v ∈ (m.op o).operands, m.dominates v o = true := by
  obtain ⟨_, _, h⟩ := Outcome.bind_eq_ok.1 h
  obtain ⟨_, _, h⟩ := Outcome.bind_eq_ok.1 h
  obtain ⟨⟨⟩, hop, hdominance⟩ := Outcome.bind_eq_ok.1 (of_verifyEach h ho)
  exact ⟨hop, fun v hv => of_verifyDominance hdominance hv⟩

/-- The rule of functions.

**Proof sketch.** By kind: of the two kinds of functions, the rule is that of functions, with a
body asked for or not. -/
theorem verifyFunction_of_verifyOp {f : OpId} (h : m.verifyOp f = .ok ())
    (hkind : (m.kind f).isFunction = true) :
    ∃ needsBody, m.verifyFunction f needsBody = .ok () := by
  unfold verifyOp at h
  cases hk : m.kind f with
  | sol op => rw [hk] at hkind; cases hkind
  | func op =>
    rw [hk] at h hkind
    cases op with
    | func => exact ⟨true, h⟩
    | ret => cases hkind
    | call => cases hkind
  | arith op => rw [hk] at hkind; cases hkind
  | memref op => rw [hk] at hkind; cases hkind
  | llvm op =>
    rw [hk] at h hkind
    cases op with
    | func => exact ⟨false, h⟩
    | _ => cases hkind

/-- A function that satisfies its rule has one region. -/
theorem exists_region_of_verifyOp {f : OpId} (h : m.verifyOp f = .ok ())
    (hkind : (m.kind f).isFunction = true) : ∃ r, (m.op f).regions = [r] := by
  obtain ⟨needsBody, hfunction⟩ := verifyFunction_of_verifyOp h hkind
  obtain ⟨⟨⟩, hcounts, _⟩ := Outcome.bind_eq_ok.1 hfunction
  exact List.length_eq_one_iff.1 (verifyCounts_eq_ok_iff.1 hcounts).2.2

/-- The successors of a branch that satisfies its rule belong to the region around the branch. -/
theorem of_verifySuccessorRegions {id : OpId} {around : Option RegionId} {blocks : List BlockId}
    (h : m.verifySuccessorRegions id around blocks = .ok ()) {b : BlockId} (hb : b ∈ blocks) :
    some (m.block b).parent = around := by
  induction blocks with
  | nil => cases hb
  | cons c blocks ih =>
    rw [verifySuccessorRegions] at h
    split at h
    · rename_i hc
      rcases List.mem_cons.1 hb with rfl | hb
      · exact hc
      · exact ih h hb
    · cases h

/-- Successors in the region around a branch satisfy the rule. -/
theorem verifySuccessorRegions_eq_ok {id : OpId} {around : Option RegionId} {blocks : List BlockId}
    (h : ∀ b ∈ blocks, some (m.block b).parent = around) :
    m.verifySuccessorRegions id around blocks = .ok () := by
  induction blocks with
  | nil => rfl
  | cons b blocks ih =>
    rw [verifySuccessorRegions, if_pos (h b (.head _))]
    exact ih fun x hx => h x (.tail _ hx)

/-- The rule of successors. -/
theorem verifySuccessors_eq_ok_iff {o : OpId} {count : Nat} :
    m.verifySuccessors o count = .ok () ↔ (m.op o).successors.length = count ∧
      ∀ b ∈ (m.op o).successors,
        some (m.block b).parent = (m.op o).parent.map fun c => (m.block c).parent := by
  simp only [verifySuccessors, Outcome.bind_unit_eq_ok, require_eq_ok, decide_eq_true_eq]
  exact and_congr_right fun _ => ⟨fun h _ hb => of_verifySuccessorRegions h hb,
    verifySuccessorRegions_eq_ok⟩

/-- A branch that satisfies its rule leads to blocks of the region that it stands in.

**Proof sketch.** The rules of both branches check the number of successors and then their
regions, and the latter is `of_verifySuccessorRegions`. -/
theorem parent_of_mem_successors {t : OpId} (h : m.verifyOp t = .ok ())
    (hkind : (m.kind t).isBranch = true) {b c : BlockId} (hb : (m.op t).parent = some b)
    (hc : c ∈ (m.op t).successors) : (m.block c).parent = (m.block b).parent := by
  have hsuccessors : ∃ count, m.verifySuccessors t count = .ok () := by
    unfold verifyOp at h
    split at h
    all_goals rename_i hk; rw [hk] at hkind
    all_goals try cases hkind
    · obtain ⟨_, _, h⟩ := Outcome.bind_eq_ok.1 h
      obtain ⟨_, _, h⟩ := Outcome.bind_eq_ok.1 h
      exact ⟨2, h⟩
    · obtain ⟨_, _, h⟩ := Outcome.bind_eq_ok.1 h
      exact ⟨1, h⟩
  obtain ⟨count, hsuccessors⟩ := hsuccessors
  obtain ⟨_, _, hregions⟩ := Outcome.bind_eq_ok.1 hsuccessors
  have hparent := of_verifySuccessorRegions hregions hc
  rw [hb] at hparent
  exact Option.some.inj hparent

/-! ## Paths -/

/-- A block ends with a branch to another block. -/
def BranchesTo (m : Module) (b c : BlockId) : Prop :=
  ∃ t, (m.block b).ops.getLast? = some t ∧ (m.kind t).isBranch = true ∧ c ∈ (m.op t).successors

/-- The blocks that an execution from `entry` runs through: those before, in order, and the one
where it is. -/
inductive ExecutionPath (m : Module) (entry : BlockId) : List BlockId → BlockId → Prop where
  | entry : ExecutionPath m entry [] entry
  | branch {earlier : List BlockId} {b c : BlockId} (path : ExecutionPath m entry earlier b)
      (hbranch : m.BranchesTo b c) : ExecutionPath m entry (earlier ++ [b]) c

/-- A value is known at an operation of the last block of a path: it is an argument of a block of
the path, a result from a block before, or a result from an earlier place of the last block. -/
def KnownOnPath (m : Module) (earlier : List BlockId) (last : BlockId) (o : OpId) (v : ValueId) :
    Prop :=
  (∃ b ∈ earlier ++ [last], v ∈ (m.block b).args) ∨
    (∃ b ∈ earlier, ∃ p ∈ (m.block b).ops, v ∈ (m.op p).results) ∨
    ∃ before after, (m.block last).ops = before ++ o :: after ∧
      ∃ p ∈ before, v ∈ (m.op p).results

/-- A path starts at its entry. -/
theorem ExecutionPath.entry_mem {entry last : BlockId} {earlier : List BlockId}
    (h : m.ExecutionPath entry earlier last) : entry ∈ earlier ++ [last] := by
  induction h with
  | entry => simp
  | branch _ _ ih => exact List.mem_append_left _ ih

section Accepted

variable {f : OpId} {r : RegionId}

/-- The operations of a function of the tree belong to the tree. -/
theorem mem_walk_of_mem_blocks (hm : m.Linked) (hf : f ∈ m.walk) (hr : r ∈ (m.op f).regions)
    {b : BlockId} (hb : b ∈ (m.region r).blocks) {o : OpId} (ho : o ∈ (m.block b).ops) :
    o ∈ m.walk := by
  obtain ⟨q, hq, hfq⟩ := hm.mem_walkRegion_iff.1 hf
  exact hm.mem_walkRegion_iff.2 ⟨q, hq, hfq.head (hm.up_of_standsIn ⟨b, hb, ho⟩ hr)⟩

/-- **Execution stays in the region of the function.**

**Proof sketch.** Induction along the path.  A branch at the end of a block of the region belongs to
the tree, so it satisfies its rule, and its successors name the region around it.  The region has an
owner, so it is not the body, and a block that names it is listed there. -/
theorem ExecutionPath.mem_blocks (hm : m.Linked) (hverify : m.verify = .ok ()) (hf : f ∈ m.walk)
    (hr : r ∈ (m.op f).regions) {entry last : BlockId} {earlier : List BlockId}
    (hentry : entry ∈ (m.region r).blocks) (h : m.ExecutionPath entry earlier last) :
    ∀ b ∈ earlier ++ [last], b ∈ (m.region r).blocks := by
  induction h with
  | entry => simpa using hentry
  | @branch earlier b c _ hbranch ih =>
    intro x hx
    rcases List.mem_append.1 hx with hx | hx
    · exact ih x hx
    · obtain rfl := List.mem_singleton.1 hx
      obtain ⟨t, hlast, hkind, hc⟩ := hbranch
      have hb := ih b (by simp)
      have ht := List.mem_of_getLast? hlast
      have hop := (of_verify hverify (mem_walk_of_mem_blocks hm hf hr hb ht)).1
      have hparent := parent_of_mem_successors hop hkind ((hm.op_parent t b).2 ht) hc
      rw [(hm.block_parent b r (hm.blocks_lt r b hb)).2 hb] at hparent
      exact hm.mem_blocks_of_parent hr hparent

/-! ## Operands -/

/-- Where a value is defined: it is an argument of the block, or a result from the place there. -/
theorem of_definedAt? (hm : m.Linked) {v : ValueId} (hv : v.index < m.values.size) {b : BlockId}
    {index : Option Nat} (h : m.definedAt? v = some (b, index)) :
    (index = none ∧ v ∈ (m.block b).args) ∨
      ∃ p i, index = some i ∧ (m.block b).ops[i]? = some p ∧ v ∈ (m.op p).results := by
  unfold definedAt? at h
  split at h
  · rename_i c k horigin
    obtain ⟨rfl, rfl⟩ := Prod.mk.inj (Option.some.inj h)
    exact .inl ⟨rfl, List.mem_of_getElem? ((hm.arg_origin v c k hv).1 horigin)⟩
  · rename_i p k horigin
    split at h
    · rename_i c i hparent hindex
      obtain ⟨rfl, rfl⟩ := Prod.mk.inj (Option.some.inj h)
      rw [indexOf?, hparent, Option.bind_some] at hindex
      obtain ⟨hi, hp, _⟩ := List.idxOf?_eq_some_iff.1 hindex
      refine .inr ⟨p, i, rfl, ?_, List.mem_of_getElem? ((hm.result_origin v p k hv).1 horigin)⟩
      rw [List.getElem?_eq_getElem hi, hp]
    · cases h

/-- What is known in a function comes from the function: at an operation of block `here`, from the
block itself, at an earlier place, or from the first block.

**Proof sketch.** The climb starts in a region of the function.  If the value is defined in it,
the verifier compares places in the block, or asks for the first block; the step outwards is
refused, because the function is isolated. -/
theorem of_reaches (hkind : (m.kind f).isIsolated = true) (howner : (m.region r).parent = some f)
    {o : OpId} {here : BlockId} (hhere : (m.op o).parent = some here)
    (hr : (m.block here).parent = r) {b : BlockId} {index : Option Nat} {depth : Nat}
    (h : m.reaches b index depth o = true) :
    (here = b ∧ ∀ i, index = some i → ∃ j, m.indexOf? o = some j ∧ i < j) ∨
      here ≠ b ∧ (m.region r).blocks.head? = some b := by
  cases depth with
  | zero => cases h
  | succ depth =>
    simp only [reaches, hhere, hr] at h
    split at h
    · split at h
      · rename_i hb
        refine .inl ⟨hb, fun i hi => ?_⟩
        subst hi
        cases hj : m.indexOf? o with
        | none =>
          rw [hj] at h
          cases h
        | some j =>
          rw [hj] at h
          exact ⟨j, rfl, of_decide_eq_true h⟩
      · rename_i hb
        exact .inr ⟨hb, of_decide_eq_true h⟩
    -- the next step outwards would leave the function
    · rw [howner] at h
      simp only [hkind, ↓reduceIte] at h
      cases h

/-- An earlier place of a list is in front of a later one. -/
theorem exists_split_of_lt {ops : List OpId} {o p : OpId} {i j : Nat} (hi : ops[i]? = some p)
    (hj : ops.idxOf? o = some j) (hij : i < j) :
    ∃ before after, ops = before ++ o :: after ∧ p ∈ before := by
  obtain ⟨hlt, ho, _⟩ := List.idxOf?_eq_some_iff.1 hj
  refine ⟨ops.take j, ops.drop (j + 1), ?_, ?_⟩
  · rw [← ho, List.getElem_cons_drop, List.take_append_drop]
  · refine List.mem_of_getElem? (i := i) ?_
    rw [List.getElem?_take_of_lt hij, hi]

/-- An operand that is defined where it is used is known on every path there.

**Proof sketch.** By `of_reaches` the value comes from the block, at an earlier place, or from
the first block of the function.  The path starts there, and goes through the whole of it if it
has left it. -/
theorem ExecutionPath.known (hm : m.Linked) (hkind : (m.kind f).isIsolated = true)
    (hr : r ∈ (m.op f).regions) {entry last : BlockId} {earlier : List BlockId}
    (hentry : (m.region r).blocks.head? = some entry) (h : m.ExecutionPath entry earlier last)
    (hlast : last ∈ (m.region r).blocks) {o : OpId} (ho : o ∈ (m.block last).ops) {v : ValueId}
    (hv : v ∈ (m.op o).operands) (hdominates : m.dominates v o = true) :
    m.KnownOnPath earlier last o v := by
  have hhere := (hm.op_parent o last).2 ho
  have hparent := (hm.block_parent last r (hm.blocks_lt r last hlast)).2 hlast
  unfold dominates at hdominates
  split at hdominates
  · rename_i b index hdef
    have hsource := of_definedAt? hm (hm.operands_lt o v hv) hdef
    rcases of_reaches hkind ((hm.region_parent r f).2 hr) hhere hparent hdominates with
      ⟨rfl, hbefore⟩ | ⟨hne, hhead⟩
    · rcases hsource with ⟨_, harg⟩ | ⟨p, i, hi, hp, hres⟩
      · exact .inl ⟨last, by simp, harg⟩
      · obtain ⟨j, hj, hij⟩ := hbefore i hi
        rw [indexOf?, hhere, Option.bind_some] at hj
        obtain ⟨before, after, hops, hmem⟩ := exists_split_of_lt hp hj hij
        exact .inr (.inr ⟨before, after, hops, p, hmem, hres⟩)
    -- what another block defines is defined in the first one, where every path starts
    · obtain rfl : entry = b := Option.some.inj (hentry.symm.trans hhead)
      have hmem : entry ∈ earlier := by
        rcases List.mem_append.1 h.entry_mem with hmem | hmem
        · exact hmem
        · exact absurd (List.mem_singleton.1 hmem).symm hne
      rcases hsource with ⟨_, harg⟩ | ⟨p, i, _, hp, hres⟩
      · exact .inl ⟨entry, List.mem_append_left _ hmem, harg⟩
      · exact .inr (.inl ⟨entry, hmem, p, List.mem_of_getElem? hp, hres⟩)
  · cases hdominates

end Accepted

end Module

/-- **No use before definition on any execution path.**  In a module that was built by valid
commands and is accepted by the verifier, an execution of a function runs through blocks of its
region only, and whatever path it takes, an operation reads only what is known on that path. -/
theorem known_on_every_path {b : Builder} (hb : b.Reachable) (hverify : b.ir.verify = .ok ())
    {f : OpId} (hf : f ∈ b.ir.walk) (hkind : (b.ir.kind f).isFunction = true) {entry : BlockId}
    (hentry : b.ir.entryBlock? f = some entry) {earlier : List BlockId} {last : BlockId}
    (hpath : b.ir.ExecutionPath entry earlier last) :
    ∃ r, (b.ir.op f).regions = [r] ∧ (∀ x ∈ earlier ++ [last], x ∈ (b.ir.region r).blocks) ∧
      ∀ o ∈ (b.ir.block last).ops, ∀ v ∈ (b.ir.op o).operands,
        b.ir.KnownOnPath earlier last o v := by
  have hm := hb.sound.linked
  obtain ⟨r, hregions⟩ := Module.exists_region_of_verifyOp (Module.of_verify hverify hf).1 hkind
  have hr : r ∈ (b.ir.op f).regions := by simp [hregions]
  have hhead : (b.ir.region r).blocks.head? = some entry := by
    simpa [Module.entryBlock?, hregions] using hentry
  have hisolated : (b.ir.kind f).isIsolated = true := by simp [OpKind.isIsolated, hkind]
  have hblocks := hpath.mem_blocks hm hverify hf hr (List.mem_of_head? hhead)
  refine ⟨r, hregions, hblocks, fun o ho v hv => ?_⟩
  have hlast := hblocks last (by simp)
  have ho' := Module.mem_walk_of_mem_blocks hm hf hr hlast ho
  exact hpath.known hm hisolated hr hhead hlast ho hv ((Module.of_verify hverify ho').2 v hv)

/-- A function with a loop: its second block reads a value of the first one and branches to itself
or to the end. -/
def loopingFunction : Builder :=
  [Command.build (.llvmFunc "loop" ⟨[.i1], []⟩ "external" true), .build (.appendBlock ⟨0⟩ 0 []),
    .build (.appendBlock ⟨0⟩ 0 []), .build (.toEnd ⟨1⟩), .build (.llvmConstant 7 .word),
    .build (.llvmCondBr ⟨0⟩ ⟨2⟩ ⟨3⟩), .build (.toEnd ⟨2⟩), .build (.llvmBinary .add ⟨1⟩ ⟨1⟩),
    .build (.llvmCondBr ⟨0⟩ ⟨2⟩ ⟨3⟩), .build (.toEnd ⟨3⟩), .build (.llvmRet [])].foldl
    (fun b c => c.run b) (.new (.new .unknown))

/-- The loop runs twice: what it reads is known the second time, too. -/
theorem known_in_loopingFunction :
    loopingFunction.ir.verify = .ok () ∧
      ∃ r, (loopingFunction.ir.op ⟨0⟩).regions = [r] ∧
        (∀ x ∈ [⟨1⟩, ⟨2⟩] ++ [⟨2⟩], x ∈ (loopingFunction.ir.region r).blocks) ∧
        ∀ o ∈ (loopingFunction.ir.block ⟨2⟩).ops, ∀ v ∈ (loopingFunction.ir.op o).operands,
          loopingFunction.ir.KnownOnPath [⟨1⟩, ⟨2⟩] ⟨2⟩ o v := by
  have hreach : loopingFunction.Reachable :=
    (Builder.Reachable.new .unknown).foldl (by decide +kernel)
  have hverify : loopingFunction.ir.verify = .ok () := by decide +kernel
  have hfirst : loopingFunction.ir.BranchesTo ⟨1⟩ ⟨2⟩ := ⟨⟨2⟩, by decide +kernel⟩
  have hsecond : loopingFunction.ir.BranchesTo ⟨2⟩ ⟨2⟩ := ⟨⟨4⟩, by decide +kernel⟩
  have hpath : loopingFunction.ir.ExecutionPath ⟨1⟩ [⟨1⟩, ⟨2⟩] ⟨2⟩ :=
    .branch (.branch .entry hfirst) hsecond
  exact ⟨hverify, known_on_every_path hreach hverify (f := ⟨0⟩) (by decide +kernel)
    (by decide +kernel) (by decide +kernel) hpath⟩

end ContractIR
