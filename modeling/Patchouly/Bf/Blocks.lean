import Patchouly.Bf.Compile
import Patchouly.Bf.Reading
import Patchouly.Lib.Tables

/-!
# The blocks of a tree

`leafActs` are the operations and checks that the code of a leaf performs. `Emits` relates a tree to code:
in a program `G` the code does what the tree says and goes on with other code. `bodyCalls_spec`
shows it of the calls that `compile` makes, and that these do not panic as long as every bracket has its
block.
-/

set_option autoImplicit false

namespace Patchouly.Bf

open Patchouly.Lib Patchouly.Core Patchouly.Managed BF

section Leaves

variable (opts : CompileOptions)

/-- The stencil of an operation, if it has one. -/
def opStencil : Op → Option BfStencil
  | .incDec n =>
      if n = 0 then none
      else if n = 1 then some .add1
      else if n = -1 then some .sub1
      else if 0 < n then some (.addn (BitVec.ofNat 64 n.natAbs))
      else some (.subn (BitVec.ofNat 64 n.natAbs))
  | .leftRight n =>
      if n = 0 then none
      else if opts.saturating then
        if n = 1 then some (.right1Sat (opts.tapeSize - 1))
        else if n = -1 then some .left1Sat
        else if 0 < n then some (.rightnSat (BitVec.ofInt 64 n) (opts.tapeSize - 1))
        else some (.leftnSat (BitVec.ofNat 64 n.natAbs))
      else if n = 1 then some .right1
      else if n = -1 then some .left1
      else if 0 < n then some (.rightn (BitVec.ofNat 64 n.natAbs))
      else some (.leftn (BitVec.ofNat 64 n.natAbs))
  | .input => some .read
  | .output => some .print
  | .setZero => some .set0
  | .addTo n => some (.addTo (BitVec.ofInt 64 n))

/-- What an operation adds to the movement. -/
def movementOf : Op → Int
  | .leftRight n => if opts.saturating then 0 else n
  | .addTo n => n
  | _ => 0

/-- Whether a check follows. -/
def NeedsCheck (movement : Int) : Prop := 1024 < movement.natAbs ∧ opts.saturating = false

instance (movement : Int) : Decidable (NeedsCheck opts movement) :=
  inferInstanceAs (Decidable (_ ∧ _))

/-- What the code of a leaf does, from a movement on. -/
def leafActs : Int → List Op → List Act
  | _, [] => []
  | movement, op :: ops =>
      (if (opStencil opts op).isSome then [.op op] else []) ++
        if NeedsCheck opts (movement + movementOf opts op) then .check :: leafActs 0 ops
        else leafActs (movement + movementOf opts op) ops

/-- The movement and the numbers of a leaf fit `i32`, and the tape of a saturating program is not
empty. -/
structure Fits (movement : Int) (ops : List Op) : Prop where
  weight : movement.natAbs + weight ops < 2 ^ 31
  tape : opts.saturating = true → 1 ≤ opts.tapeSize.toNat

variable {opts}

theorem natAbs_movementOf_le (op : Op) : (movementOf opts op).natAbs ≤ op.size := by
  cases op with
  | leftRight n =>
      simp only [movementOf, Op.size]
      split
      · exact Nat.zero_le _
      · exact Nat.le_refl _
  | addTo n => exact Nat.le_refl _
  | _ => exact Nat.zero_le _

theorem Fits.next {movement : Int} {op : Op} {ops : List Op} (h : Fits opts movement (op :: ops)) :
    Fits opts (movement + movementOf opts op) ops := by
  have hsize : (movementOf opts op).natAbs ≤ op.size := natAbs_movementOf_le op
  have hweight := h.weight
  rw [weight_cons] at hweight
  exact ⟨by omega, h.tape⟩

theorem Fits.reset {movement : Int} {ops : List Op} (h : Fits opts movement ops) :
    Fits opts 0 ops := by
  have hweight := h.weight
  exact ⟨by simp only [Int.natAbs_zero]; omega, h.tape⟩

theorem opCalls_spec (checks : Bool) {movement : Int} {op : Op} {ops : List Op}
    (h : Fits opts movement (op :: ops)) :
    opCalls checks opts movement op =
      some ((opStencil opts op).toList.map .emit, movement + movementOf opts op) := by
  have hnext := h.next.weight
  have hsum : plainI32 checks (movement + movementOf opts op) = some (movement + movementOf opts op) :=
    plainI32_of_lt checks (by omega)
  cases op with
  | incDec n =>
      simp only [opCalls, opStencil, movementOf, Int.add_zero]
      split_ifs <;> rfl
  | leftRight n =>
      simp only [movementOf] at hsum ⊢
      cases hs : opts.saturating with
      | true =>
          have hlim : plainSub checks opts.tapeSize 1 = some (opts.tapeSize - 1) :=
            plainSub_of_le checks (h.tape hs)
          simp only [opCalls, opStencil, hs, hlim, if_true, Int.add_zero]
          split_ifs <;> rfl
      | false =>
          rw [hs] at hsum
          simp only [opCalls, opStencil, hs, Bool.false_eq_true, if_false] at hsum ⊢
          by_cases h0 : n = 0
          · simp [h0]
          · by_cases h1 : n = 1
            · subst h1
              simp [hsum]
            · by_cases h2 : n = -1
              · subst h2
                rw [Int.sub_eq_add_neg, hsum]
                simp
              · simp only [h0, h1, h2, if_false, hsum, Option.map_some]
                split_ifs <;> rfl
  | addTo n =>
      simp only [movementOf] at hsum
      simp only [opCalls, hsum, Option.map_some]
      rfl
  | input => simp [opCalls, opStencil, movementOf]
  | output => simp [opCalls, opStencil, movementOf]
  | setZero => simp [opCalls, opStencil, movementOf]

variable (opts) (panic : BlockId)

/-- The call of an act. -/
def actCall : Act → BfCall
  | .op op => .emit ((opStencil opts op).getD .jmp)
  | .check => checkCall panic

def actInstr (act : Act) : Instr := (actCall opts panic act).instr

variable {opts} {panic}

theorem checkCalls_spec (checks : Bool) {movement : Int} (h : movement.natAbs < 2 ^ 31) :
    checkCalls checks opts panic movement =
      some (if NeedsCheck opts movement then ([checkCall panic], 0) else ([], movement)) := by
  rw [checkCalls, plainI32_of_lt checks (by omega), Option.map_some]
  congr 1
  apply if_congr _ rfl rfl
  rw [NeedsCheck]
  constructor
  · rintro ⟨hlt, hsat⟩
    exact ⟨by omega, hsat⟩
  · rintro ⟨hlt, hsat⟩
    exact ⟨by omega, hsat⟩

/-- **The calls of a leaf** are those of its acts. -/
theorem leafCalls_spec (checks : Bool) {movement : Int} {ops : List Op} (h : Fits opts movement ops) :
    leafCalls checks opts panic movement ops =
      some ((leafActs opts movement ops).map (actCall opts panic)) := by
  induction ops generalizing movement with
  | nil => rfl
  | cons op ops ih =>
      have hnext := h.next
      have hweight := hnext.weight
      have hcall : ((opStencil opts op).toList.map BfCall.emit) =
          (if (opStencil opts op).isSome then [Act.op op] else []).map (actCall opts panic) := by
        cases hst : opStencil opts op with
        | none => rfl
        | some st => simp [actCall, hst]
      have hcheck : checkCalls checks opts panic (movement + movementOf opts op) = _ :=
        checkCalls_spec checks (by omega)
      rw [leafCalls, opCalls_spec checks h, Option.bind_some, hcheck, Option.bind_some, leafActs]
      by_cases hneeds : NeedsCheck opts (movement + movementOf opts op)
      · rw [if_pos hneeds, if_pos hneeds, ih hnext.reset, Option.map_some, List.map_append,
          List.map_cons, ← hcall, actCall, List.append_assoc, List.singleton_append]
      · rw [if_neg hneeds, if_neg hneeds, ih hnext, Option.map_some, List.map_append, ← hcall,
          List.append_nil]

theorem headCode_acts (acts : List Act) (more : List BfCall) :
    headCode (acts.map (actCall opts panic) ++ more) =
      acts.map (actInstr opts panic) ++ headCode more := by
  induction acts with
  | nil => rfl
  | cons act acts ih =>
      cases act with
      | op op => simp [actCall, headCode, actInstr, ih]
      | check => simp [actCall, checkCall, headCode, actInstr, ih]

theorem laterBlocks_acts (acts : List Act) (more : List BfCall) :
    laterBlocks (acts.map (actCall opts panic) ++ more) = laterBlocks more := by
  induction acts with
  | nil => rfl
  | cons act acts ih =>
      cases act with
      | op op => simpa [actCall, laterBlocks] using ih
      | check => simpa [actCall, checkCall, laterBlocks] using ih

end Leaves

/-! ## Trees -/

section Trees

variable (opts : CompileOptions) (panic : BlockId) (G : Graph)

def jmpInstr (next : BlockId) : Instr := (BfCall.endBranch .jmp [.same next] next).instr

/-- The test of a loop, out of it to `tail`. -/
def testInstr (tail : BlockId) (into : JumpScope) : Instr :=
  ⟨testStencil opts, (testJumps opts panic (.same tail) into).map JumpScope.target⟩

mutual

/-- The code does what the tree says and goes on with other code. -/
def Emits : BF → List Instr → List Instr → Prop
  | .leaf ops, code, rest => code = (leafActs opts 0 ops).map (actInstr opts panic) ++ rest
  | .node nodes, code, rest => EmitsAll nodes code rest
  | .loop body, code, rest => ∃ next tail inner, code = [jmpInstr next] ∧
      G next = some (testInstr opts panic tail .next :: inner) ∧
        Emits body inner [testInstr opts panic tail (.same next)] ∧ G tail = some rest

def EmitsAll : List BF → List Instr → List Instr → Prop
  | [], code, rest => code = rest
  | first :: nodes, code, rest => ∃ mid, Emits first code mid ∧ EmitsAll nodes mid rest

end

end Trees

/-! ## The calls of a tree -/

section Calls

variable {opts : CompileOptions} {panic : BlockId}

theorem blockCount_append (visits visits' : List BfVisitOp) :
    blockCount (visits ++ visits') = blockCount visits + blockCount visits' := by
  rw [blockCount, List.filter_append, List.length_append, blockCount, blockCount]

mutual

/-- Two blocks for each loop. -/
theorem blockCount_visit : ∀ tree : BF, blockCount tree.visit = 2 * tree.loops
  | .leaf _ => rfl
  | .node nodes => blockCount_visitAll nodes
  | .loop body => by
      rw [visit, List.cons_append, ← List.singleton_append, blockCount_append, blockCount_append,
        blockCount_visit body, BF.loops]
      change 1 + (2 * body.loops + 1) = 2 * (body.loops + 1)
      omega

theorem blockCount_visitAll : ∀ nodes : List BF, blockCount (visitAll nodes) = 2 * loopsAll nodes
  | [] => rfl
  | first :: nodes => by
      rw [visitAll, blockCount_append, blockCount_visit first, blockCount_visitAll nodes, loopsAll,
        Nat.mul_add]

end

theorem visitAllCalls_append (checks : Bool) (v : Visitor) (visits visits' : List BfVisitOp) :
    visitAllCalls checks opts panic v (visits ++ visits') =
      (visitAllCalls checks opts panic v visits).bind fun first =>
        (visitAllCalls checks opts panic first.2 visits').map fun rest =>
          (first.1 ++ rest.1, rest.2) := by
  induction visits generalizing v with
  | nil => simp [visitAllCalls]
  | cons op visits ih =>
      rw [List.cons_append, visitAllCalls, visitAllCalls]
      cases visitCalls checks opts panic v op with
      | none => rfl
      | some visited =>
          simp only [Option.bind_some, ih]
          cases visitAllCalls checks opts panic visited.2 visits with
          | none => rfl
          | some first =>
              simp only [Option.bind_some, Option.map_some]
              cases visitAllCalls checks opts panic first.2 visits' with
              | none => rfl
              | some rest => simp

theorem laterBlocks_append {calls : List BfCall} (h : ∀ n, .ret n ∉ calls) (more : List BfCall) :
    laterBlocks more ⊆ laterBlocks (calls ++ more) := by
  induction calls with
  | nil => exact List.Subset.refl _
  | cons call calls ih =>
      have hrest := ih fun n hn => h n (List.mem_cons_of_mem _ hn)
      cases call with
      | emit stencil => exact hrest
      | branch stencil jumps => exact hrest
      | endBranch stencil jumps next =>
          -- the rest of the calls start a block of their own
          exact List.subset_cons_of_subset _ hrest
      | ret n => exact absurd List.mem_cons_self (h n)

/-- What `compile` does on the visits of a tree. -/
structure Visited (opts : CompileOptions) (panic : BlockId) (v v' : Visitor) (calls : List BfCall)
    (code : Graph → List Instr → List Instr → Prop) : Prop where
  loopStack : v'.loopStack = v.loopStack
  noRet : ∀ n, .ret n ∉ calls
  used : ∃ used, v.blocks.Perm (used ++ v'.blocks) ∧
    ∀ more, ((laterBlocks (calls ++ more)).map (·.1)).Perm (used ++ (laterBlocks more).map (·.1))
  emits : ∀ G more, (∀ p ∈ laterBlocks (calls ++ more), G p.1 = some p.2) →
    code G (headCode (calls ++ more)) (headCode more)

theorem Visited.length {v v' : Visitor} {calls : List BfCall}
    {code : Graph → List Instr → List Instr → Prop} (h : Visited opts panic v v' calls code) :
    v'.blocks.length ≤ v.blocks.length := by
  obtain ⟨used, hperm, -⟩ := h.used
  rw [hperm.length_eq, List.length_append]
  omega

/-- One tree behind another. -/
theorem Visited.trans {v₁ v₂ v₃ : Visitor} {calls calls' : List BfCall}
    {code code' : Graph → List Instr → List Instr → Prop} (h : Visited opts panic v₁ v₂ calls code)
    (h' : Visited opts panic v₂ v₃ calls' code') :
    Visited opts panic v₁ v₃ (calls ++ calls') fun G c rest => ∃ mid, code G c mid ∧ code' G mid rest := by
  obtain ⟨used, hperm, hlater⟩ := h.used
  obtain ⟨used', hperm', hlater'⟩ := h'.used
  refine ⟨h'.loopStack.trans h.loopStack, ?_, ⟨used ++ used', ?_, ?_⟩, ?_⟩
  · intro n hn
    exact (List.mem_append.1 hn).elim (h.noRet n) (h'.noRet n)
  · rw [List.append_assoc]
    exact hperm.trans (hperm'.append_left used)
  · intro more
    rw [List.append_assoc, List.append_assoc]
    exact (hlater _).trans ((hlater' more).append_left used)
  · intro G more hG
    rw [List.append_assoc] at hG ⊢
    exact ⟨_, h.emits G _ hG, h'.emits G more fun p hp => hG p (laterBlocks_append h.noRet _ hp)⟩

/-- The calls of a loop around the calls of its body. -/
theorem Visited.loop {body : BF} {next tail : BlockId} {mid : List BlockId} {v v' : Visitor}
    {calls : List BfCall} (hblocks : v.blocks = next :: (mid ++ [tail]))
    (h : Visited opts panic ⟨mid, (next, tail) :: v.loopStack, next⟩ v' calls
      (fun G => Emits opts panic G body)) :
    Visited opts panic v ⟨v'.blocks, v.loopStack, tail⟩
      ([.endBranch .jmp [.same next] next,
          .branch (testStencil opts) (testJumps opts panic (.same tail) .next)] ++ calls ++
        [.endBranch (testStencil opts) (testJumps opts panic (.same tail) (.same next)) tail])
      (fun G => Emits opts panic G (.loop body)) := by
  obtain ⟨used, hperm, hlater⟩ := h.used
  refine ⟨rfl, ?_, ⟨next :: tail :: used, ?_, ?_⟩, ?_⟩
  · intro n hn
    have hnot := h.noRet n
    simp at hn
    exact hnot hn
  · rw [hblocks]
    have hmid : (mid ++ [tail]).Perm (tail :: mid) := List.perm_append_singleton _ _
    exact ((hmid.trans (hperm.cons tail)).cons next)
  · intro more
    simp only [List.cons_append, List.nil_append, List.append_assoc, laterBlocks, List.map_cons]
    refine List.Perm.cons next ((hlater _).trans ?_)
    simp only [laterBlocks, List.map_cons]
    exact List.perm_middle
  · intro G more hG
    simp only [List.cons_append, List.nil_append, List.append_assoc, laterBlocks, List.mem_cons,
      forall_eq_or_imp, headCode] at hG ⊢
    obtain ⟨hstart, hrest⟩ := hG
    have hbody := h.emits G (.endBranch (testStencil opts)
      (testJumps opts panic (.same tail) (.same next)) tail :: more) hrest
    refine ⟨next, tail, _, rfl, hstart, hbody, ?_⟩
    -- the block behind the loop starts with the last call
    exact hrest (tail, headCode more)
      (laterBlocks_append h.noRet _ (by simp only [laterBlocks, List.mem_cons, true_or]))

mutual

/-- **The calls of a tree** do not panic if there are blocks for its brackets, and emit the tree. -/
theorem visit_spec (checks : Bool) (htape : opts.saturating = true → 1 ≤ opts.tapeSize.toNat) :
    ∀ (tree : BF) (v : Visitor), weight tree.ops < 2 ^ 31 → blockCount tree.visit ≤ v.blocks.length →
      ∃ calls v', visitAllCalls checks opts panic v tree.visit = some (calls, v') ∧
        v'.blocks.length + blockCount tree.visit = v.blocks.length ∧
          Visited opts panic v v' calls fun G => Emits opts panic G tree
  | .leaf ops, v, hweight, _ => by
      have hfits : Fits opts 0 ops := ⟨by simpa [BF.ops] using hweight, htape⟩
      refine ⟨_, v, by
        rw [BF.visit, visitAllCalls, visitCalls, leafCalls_spec checks hfits]
        rfl, rfl, rfl, ?_, ⟨[], List.Perm.refl _, ?_⟩, ?_⟩
      · intro n hn
        rw [List.append_nil] at hn
        obtain ⟨act, -, hact⟩ := List.mem_map.1 hn
        cases act with
        | op op => cases hact
        | check => cases hact
      · intro more
        rw [List.append_nil, laterBlocks_acts]
        exact List.Perm.refl _
      · intro G more _
        rw [List.append_nil, headCode_acts, Emits]
  | .node nodes, v, hweight, hblocks => visitAll_spec checks htape nodes v hweight hblocks
  | .loop body, v, hweight, hblocks => by
      have hcount : blockCount (BF.loop body).visit = blockCount body.visit + 2 := by
        rw [BF.visit, List.cons_append, ← List.singleton_append, blockCount_append, blockCount_append]
        simp only [blockCount, List.filter_cons, List.filter_nil, if_true, List.length_singleton]
        omega
      rw [hcount] at hblocks ⊢
      obtain ⟨next, rest, hv⟩ : ∃ next rest, v.blocks = next :: rest :=
        List.exists_cons_of_ne_nil (by rintro hnil; rw [hnil] at hblocks; simp at hblocks)
      obtain ⟨mid, tail, rfl⟩ : ∃ mid tail, rest = mid ++ [tail] :=
        (List.eq_nil_or_concat rest).resolve_left (by
          rintro rfl
          rw [hv] at hblocks
          simp at hblocks) |>.imp fun mid h => h.imp fun tail h => by simpa using h
      have hlength : v.blocks.length = mid.length + 2 := by rw [hv]; simp
      obtain ⟨calls, v', hret, hleft, hbody⟩ :=
        visit_spec checks htape body ⟨mid, (next, tail) :: v.loopStack, next⟩ hweight (by
          show _ ≤ mid.length
          omega)
      have hloop := hbody.loop hv
      refine ⟨_, _, ?_, ?_, hloop⟩
      · have hstack : v'.loopStack = (next, tail) :: v.loopStack := hbody.loopStack
        rw [BF.visit, List.cons_append, visitAllCalls, visitCalls, hv]
        simp only [List.getLast?_append, List.getLast?_singleton, Option.some_or, Option.bind_some,
          List.dropLast_concat, visitAllCalls_append, hret]
        simp only [visitAllCalls, visitCalls, hstack, Option.bind_some, Option.map_some,
          List.append_nil, List.append_assoc]
      · have hleft' : v'.blocks.length + blockCount body.visit = mid.length := hleft
        show v'.blocks.length + _ = _
        omega

theorem visitAll_spec (checks : Bool) (htape : opts.saturating = true → 1 ≤ opts.tapeSize.toNat) :
    ∀ (nodes : List BF) (v : Visitor), weight (opsAll nodes) < 2 ^ 31 →
      blockCount (visitAll nodes) ≤ v.blocks.length →
        ∃ calls v', visitAllCalls checks opts panic v (visitAll nodes) = some (calls, v') ∧
          v'.blocks.length + blockCount (visitAll nodes) = v.blocks.length ∧
            Visited opts panic v v' calls fun G => EmitsAll opts panic G nodes
  | [], v, _, _ => by
      refine ⟨[], v, rfl, rfl, rfl, ?_, ⟨[], List.Perm.refl _, ?_⟩, ?_⟩
      · intro n hn
        cases hn
      · intro more
        exact List.Perm.refl _
      · intro G more _
        rfl
  | first :: nodes, v, hweight, hblocks => by
      rw [opsAll, weight_append] at hweight
      rw [visitAll, blockCount_append] at hblocks ⊢
      obtain ⟨calls, v₁, hret, hleft, hvisited⟩ :=
        visit_spec checks htape first v (by omega) (by omega)
      obtain ⟨calls', v₂, hret', hleft', hvisited'⟩ :=
        visitAll_spec checks htape nodes v₁ (by omega) (by omega)
      refine ⟨calls ++ calls', v₂, ?_, by omega, hvisited.trans hvisited'⟩
      rw [visitAllCalls_append, hret, Option.bind_some, hret', Option.map_some]

end

/-- **The calls of the whole program** do not panic; their blocks are `0`, the given ones and `panic`, and
the code of block 0 emits the tree in front of the last check. -/
theorem bodyCalls_spec (checks : Bool) (htape : opts.saturating = true → 1 ≤ opts.tapeSize.toNat)
    {tree : BF} {blocks : List BlockId} (hweight : weight tree.ops < 2 ^ 31)
    (hblocks : blocks.length = blockCount tree.visit) (hnodup : (0 :: blocks ++ [panic]).Nodup) :
    ∃ calls, bodyCalls checks opts panic blocks tree = some calls ∧
      ((laterBlocks calls).map (·.1)).Perm blocks ∧
        graphOf panic calls 0 = some (headCode calls) ∧
          graphOf panic calls panic = some (headCode panicCalls) ∧
            Emits opts panic (graphOf panic calls) tree (headCode calls)
              [(checkCall panic).instr, ⟨.ret 0, []⟩] := by
  obtain ⟨calls, v', hret, hleft, hvisited⟩ :=
    @visit_spec opts panic checks htape tree ⟨blocks, [], 0⟩ hweight (Nat.le_of_eq hblocks.symm)
  have hempty : v'.blocks = [] := by
    have hleft' : v'.blocks.length + blockCount tree.visit = blocks.length := hleft
    exact List.length_eq_zero_iff.1 (by omega)
  obtain ⟨used, hperm, hlater⟩ := hvisited.used
  have hused : blocks.Perm used := by simpa [hempty] using hperm
  have hnames : ((laterBlocks (calls ++ [checkCall panic, .ret 0])).map (·.1)).Perm blocks := by
    have hall := hlater [checkCall panic, .ret 0]
    simp only [checkCall, laterBlocks, List.map_nil, List.append_nil] at hall
    exact hall.trans hused.symm
  -- no block has two codes, so each name finds its own
  have hfind : ∀ p ∈ (0, headCode (calls ++ [checkCall panic, .ret 0])) ::
      laterBlocks (calls ++ [checkCall panic, .ret 0]) ++ [(panic, headCode panicCalls)],
      graphOf panic (calls ++ [checkCall panic, .ret 0]) p.1 = some p.2 := by
    intro p hp
    apply lookup_of_mem _ hp
    rw [List.map_append, List.map_cons]
    exact ((hnames.cons 0).append_right [panic]).nodup_iff.2 hnodup
  refine ⟨calls ++ [checkCall panic, .ret 0], by rw [bodyCalls, hret]; rfl, hnames,
    hfind (0, _) (List.mem_append_left _ List.mem_cons_self),
    hfind (panic, _) (List.mem_append_right _ (List.mem_singleton.2 rfl)), ?_⟩
  exact hvisited.emits _ _ fun p hp =>
    hfind p (List.mem_append_left _ (List.mem_cons_of_mem _ hp))

end Calls

end Patchouly.Bf
