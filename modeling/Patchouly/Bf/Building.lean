import Patchouly.Bf.Correct
import Patchouly.Managed.Identity
import Patchouly.Managed.Image

/-!
# Building the code of a text (`examples/bf/src/main.rs`)

`compile` on the builder: the blocks, the entry with its three parameters, the calls of the body, and the
block `panic`. When it succeeds, the blocks of the finished program are the images of the code that
`compileText` gives them, stencil by stencil (`compile_image`).
-/

set_option autoImplicit false

namespace Patchouly.Bf

open Patchouly.Lib Patchouly.Core Patchouly.Patch Patchouly.Build Patchouly.Managed BF

/-! ## The families -/

/-- What `#[stencil(n = 4)]` makes of the stencils. -/
structure Families where
  add1 : StencilFamily 3 0 4 0 1
  addn : StencilFamily 3 0 4 1 1
  sub1 : StencilFamily 3 0 4 0 1
  subn : StencilFamily 3 0 4 1 1
  check : StencilFamily 3 0 4 0 2
  left1 : StencilFamily 1 1 4 0 1
  leftn : StencilFamily 1 1 4 1 1
  left1Sat : StencilFamily 1 1 4 0 1
  leftnSat : StencilFamily 1 1 4 1 1
  right1 : StencilFamily 1 1 4 0 1
  rightn : StencilFamily 1 1 4 1 1
  right1Sat : StencilFamily 1 1 4 1 1
  rightnSat : StencilFamily 1 1 4 2 1
  print : StencilFamily 3 0 4 1 1
  read : StencilFamily 3 0 4 1 1
  ifZero : StencilFamily 3 0 4 0 3
  ifZeroUnchecked : StencilFamily 3 0 4 0 2
  jmp : StencilFamily 0 0 4 0 1
  ret : StencilFamily 0 0 4 1 0
  set0 : StencilFamily 3 0 4 0 1
  addTo : StencilFamily 3 0 4 1 1

/-- The addresses of the functions `input` and `print`. -/
structure Functions where
  input : Usize
  print : Usize

namespace Families

variable (F : Families) (fns : Functions)

/-- The family of a stencil, with the values in its holes. -/
def source : BfStencil → Source 4
  | .add1 => ⟨F.add1, nil⟩
  | .addn n => ⟨F.addn, .singleton n⟩
  | .sub1 => ⟨F.sub1, nil⟩
  | .subn n => ⟨F.subn, .singleton n⟩
  | .check => ⟨F.check, nil⟩
  | .left1 => ⟨F.left1, nil⟩
  | .leftn n => ⟨F.leftn, .singleton n⟩
  | .left1Sat => ⟨F.left1Sat, nil⟩
  | .leftnSat n => ⟨F.leftnSat, .singleton n⟩
  | .right1 => ⟨F.right1, nil⟩
  | .rightn n => ⟨F.rightn, .singleton n⟩
  | .right1Sat lim => ⟨F.right1Sat, .singleton lim⟩
  | .rightnSat n lim => ⟨F.rightnSat, #v[n, lim]⟩
  | .print => ⟨F.print, .singleton fns.print⟩
  | .read => ⟨F.read, .singleton fns.input⟩
  | .ifZero => ⟨F.ifZero, nil⟩
  | .ifZeroUnchecked => ⟨F.ifZeroUnchecked, nil⟩
  | .jmp => ⟨F.jmp, nil⟩
  | .ret n => ⟨F.ret, .singleton n⟩
  | .set0 => ⟨F.set0, nil⟩
  | .addTo n => ⟨F.addTo, .singleton n⟩

/-- All families were generated for the library. -/
def Generated (library : StencilLibrary 4) : Prop :=
  ∀ stencil, IsGenerated library (F.source fns stencil).family

end Families

/-! ## The calls on the handle -/

/-- The parameters `base_ptr`, `len` and `index`. -/
structure Params where
  basePtr : Value
  len : Value
  index : Value

namespace Params

variable (params : Params)

def all : Vector Value 3 := #v[params.basePtr, params.len, params.index]

def onlyIndex : Vector Value 1 := .singleton params.index

end Params

section Calls

variable (F : Families) (fns : Functions) (params : Params)

/-- The `emit` of a stencil. -/
def emitOp : BfStencil → Option (Managed.Op 4)
  | .add1 => some (.emit F.add1 params.all nil nil)
  | .sub1 => some (.emit F.sub1 params.all nil nil)
  | .addn n => some (.emit F.addn params.all nil (.singleton n))
  | .subn n => some (.emit F.subn params.all nil (.singleton n))
  | .right1Sat lim => some (.emit F.right1Sat params.onlyIndex params.onlyIndex (.singleton lim))
  | .right1 => some (.emit F.right1 params.onlyIndex params.onlyIndex nil)
  | .left1Sat => some (.emit F.left1Sat params.onlyIndex params.onlyIndex nil)
  | .left1 => some (.emit F.left1 params.onlyIndex params.onlyIndex nil)
  | .rightnSat n lim => some (.emit F.rightnSat params.onlyIndex params.onlyIndex #v[n, lim])
  | .leftnSat n => some (.emit F.leftnSat params.onlyIndex params.onlyIndex (.singleton n))
  | .rightn n => some (.emit F.rightn params.onlyIndex params.onlyIndex (.singleton n))
  | .leftn n => some (.emit F.leftn params.onlyIndex params.onlyIndex (.singleton n))
  | .read => some (.emit F.read params.all nil (.singleton fns.input))
  | .print => some (.emit F.print params.all nil (.singleton fns.print))
  | .set0 => some (.emit F.set0 params.all nil nil)
  | .addTo n => some (.emit F.addTo params.all nil (.singleton n))
  | _ => none

/-- The `branch` of a stencil. -/
def branchOp : BfStencil → List JumpScope → Option (Managed.Op 4)
  | .check, [go, panic] => some (.branch F.check params.all nil nil #v[go, panic])
  | .ifZeroUnchecked, [out, into] =>
      some (.branch F.ifZeroUnchecked params.all nil nil #v[out, into])
  | .ifZero, [out, into, panic] =>
      some (.branch F.ifZero params.all nil nil #v[out, into, panic])
  | _, _ => none

/-- The `end_branch` of a stencil. -/
def endBranchOp (next : BlockId) : BfStencil → List JumpScope → Option (Managed.Op 4)
  | .jmp, [target] => some (.endBranch F.jmp nil nil nil (.singleton target) next)
  | .ifZeroUnchecked, [out, into] =>
      some (.endBranch F.ifZeroUnchecked params.all nil nil #v[out, into] next)
  | .ifZero, [out, into, panic] =>
      some (.endBranch F.ifZero params.all nil nil #v[out, into, panic] next)
  | _, _ => none

/-- The call on the handle. The visitor makes no other ones. -/
def BfCall.op : BfCall → Option (Managed.Op 4)
  | .emit stencil => emitOp F fns params stencil
  | .branch stencil jumps => branchOp F params stencil jumps
  | .endBranch stencil jumps next => endBranchOp F params next stencil jumps
  | .ret n => some (.ret F.ret nil (.singleton n))

/-- Where a call leaves the handle of block `id`. -/
def BfCall.handle (id : BlockId) : BfCall → List BlockId
  | .endBranch _ _ next => [next]
  | .ret _ => []
  | _ => [id]

variable {F fns params}

/-- The call passes the family of its stencil, and the jumps. -/
theorem BfCall.op_passes {call : BfCall} {op : Managed.Op 4} (h : call.op F fns params = some op)
    (id : BlockId) :
    op.source = some (F.source fns call.instr.stencil) ∧ op.targets = call.instr.jumps ∧
      op.handle id = call.handle id := by
  cases call with
  | emit stencil =>
      cases stencil <;> cases h <;> exact ⟨rfl, rfl, rfl⟩
  | branch stencil jumps =>
      rw [BfCall.op] at h
      unfold branchOp at h
      split at h <;> cases h <;>
        exact ⟨rfl, by simp [Managed.Op.targets, BfCall.instr], rfl⟩
  | endBranch stencil jumps next =>
      rw [BfCall.op] at h
      unfold endBranchOp at h
      split at h <;> cases h <;>
        exact ⟨rfl, by simp [Managed.Op.targets, BfCall.instr, Vector.singleton], rfl⟩
  | ret n =>
      obtain rfl := Option.some.inj h
      exact ⟨rfl, rfl, rfl⟩

end Calls

/-! ## The blocks of the calls -/

/-- Which instruction is copied into which block. -/
def placed : BlockId → List BfCall → List (BlockId × Instr)
  | _, [] => []
  | cur, .endBranch stencil jumps next :: rest =>
      (cur, (BfCall.endBranch stencil jumps next).instr) :: placed next rest
  | cur, .ret n :: _ => [(cur, (BfCall.ret n).instr)]
  | cur, call :: rest => (cur, call.instr) :: placed cur rest

/-- The instructions of block `b`. -/
def codeIn (b : BlockId) (code : List (BlockId × Instr)) : List Instr :=
  code.filterMap fun p => if p.1 = b then some p.2 else none

theorem codeIn_append (b : BlockId) (code more : List (BlockId × Instr)) :
    codeIn b (code ++ more) = codeIn b code ++ codeIn b more :=
  List.filterMap_append

theorem codeIn_cons_self (b : BlockId) (instr : Instr) (code : List (BlockId × Instr)) :
    codeIn b ((b, instr) :: code) = instr :: codeIn b code := by
  rw [codeIn, List.filterMap_cons]
  simp only [if_true]
  rfl

theorem codeIn_cons_ne {b cur : BlockId} (h : cur ≠ b) (instr : Instr) (code : List (BlockId × Instr)) :
    codeIn b ((cur, instr) :: code) = codeIn b code := by
  rw [codeIn, List.filterMap_cons]
  simp only [if_neg h]
  rfl

/-- Only the current block and the later ones get code. -/
theorem codeIn_placed_eq_nil {b cur : BlockId} {calls : List BfCall} (hcur : cur ≠ b)
    (hlater : b ∉ (laterBlocks calls).map (·.1)) : codeIn b (placed cur calls) = [] := by
  fun_induction placed cur calls with
  | case1 cur => rfl
  | case2 cur stencil jumps next rest ih =>
      rw [laterBlocks, List.map_cons, List.mem_cons, not_or] at hlater
      rw [codeIn_cons_ne hcur]
      exact ih (Ne.symm hlater.1) hlater.2
  | case3 cur n rest =>
      rw [codeIn_cons_ne hcur]
      rfl
  | case4 cur call rest hend hret ih =>
      rw [codeIn_cons_ne hcur]
      refine ih hcur ?_
      cases call with
      | emit => exact hlater
      | branch => exact hlater
      | endBranch stencil jumps next => exact absurd rfl (hend stencil jumps next)
      | ret n => exact absurd rfl (hret n)

/-- **The calls fill the blocks with their code**, if they go on to no block twice. -/
theorem codeIn_placed {b cur : BlockId} {calls : List BfCall} {instrs : List Instr}
    (hnodup : (cur :: (laterBlocks calls).map (·.1)).Nodup)
    (h : (b, instrs) ∈ (cur, headCode calls) :: laterBlocks calls) :
    codeIn b (placed cur calls) = instrs := by
  fun_induction placed cur calls generalizing instrs with
  | case1 cur =>
      obtain ⟨rfl, rfl⟩ := Prod.mk.inj (List.mem_singleton.1 h)
      rfl
  | case2 cur stencil jumps next rest ih =>
      rw [laterBlocks, List.map_cons] at hnodup
      obtain ⟨hcur, hnodup⟩ := List.nodup_cons.1 hnodup
      rw [List.mem_cons, not_or] at hcur
      rcases List.mem_cons.1 h with h | h
      · obtain ⟨rfl, rfl⟩ := Prod.mk.inj h
        rw [codeIn_cons_self, codeIn_placed_eq_nil (Ne.symm hcur.1) hcur.2]
        rfl
      · have hne : cur ≠ b := by
          rintro rfl
          rcases List.mem_cons.1 h with h | h
          · exact hcur.1 (Prod.mk.inj h).1
          · exact hcur.2 (List.mem_map.2 ⟨_, h, rfl⟩)
        rw [codeIn_cons_ne hne]
        exact ih hnodup h
  | case3 cur n rest =>
      obtain ⟨rfl, rfl⟩ := Prod.mk.inj (List.mem_singleton.1 h)
      rw [codeIn_cons_self]
      rfl
  | case4 cur call rest hend hret ih =>
      have hhead : headCode (call :: rest) = call.instr :: headCode rest ∧
          laterBlocks (call :: rest) = laterBlocks rest := by
        cases call with
        | emit => exact ⟨rfl, rfl⟩
        | branch => exact ⟨rfl, rfl⟩
        | endBranch stencil jumps next => exact absurd rfl (hend stencil jumps next)
        | ret n => exact absurd rfl (hret n)
      rw [hhead.2] at hnodup
      rw [hhead.1, hhead.2] at h
      rcases List.mem_cons.1 h with h | h
      · obtain ⟨rfl, rfl⟩ := Prod.mk.inj h
        rw [codeIn_cons_self, ih hnodup List.mem_cons_self]
      · have hne : cur ≠ b := by
          rintro rfl
          exact (List.nodup_cons.1 hnodup).1 (List.mem_map.2 ⟨_, h, rfl⟩)
        rw [codeIn_cons_ne hne]
        exact ih hnodup (List.mem_cons_of_mem _ h)

/-- Calls that end with a return give no block without code. -/
theorem code_ne_nil {front : List BfCall} {n : Usize} {b cur : BlockId} {instrs : List Instr}
    (h : (b, instrs) ∈ (cur, headCode (front ++ [.ret n])) :: laterBlocks (front ++ [.ret n])) :
    instrs ≠ [] := by
  induction front generalizing cur with
  | nil =>
      obtain ⟨-, rfl⟩ := Prod.mk.inj (List.mem_singleton.1 h)
      exact List.cons_ne_nil _ _
  | cons call front ih =>
      rcases List.mem_cons.1 h with h | h
      · obtain ⟨-, rfl⟩ := Prod.mk.inj h
        cases call <;> exact List.cons_ne_nil _ _
      · cases call with
        | emit => exact @ih cur (List.mem_cons_of_mem _ h)
        | branch => exact @ih cur (List.mem_cons_of_mem _ h)
        | endBranch stencil jumps next => exact ih h
        | ret => cases h

/-- The instructions of a block of the program, among all that the calls and those on `panic` copy. -/
theorem codeIn_graph {front : List BfCall} {n : Usize} {panic b : BlockId} {instrs : List Instr}
    (hnodup : ((0 :: (laterBlocks (front ++ [.ret n])).map (·.1)) ++ [panic]).Nodup)
    (h : graphOf panic (front ++ [.ret n]) b = some instrs) :
    instrs ≠ [] ∧ codeIn b (placed 0 (front ++ [.ret n]) ++ placed panic panicCalls) = instrs := by
  obtain ⟨hbody, -, hapart⟩ := List.nodup_append.1 hnodup
  have hne : ∀ b' ∈ 0 :: (laterBlocks (front ++ [.ret n])).map (·.1), b' ≠ panic :=
    fun b' hb' => hapart b' hb' panic (List.mem_singleton.2 rfl)
  obtain ⟨l₁, l₂, hl, -⟩ := List.lookup_eq_some_iff.1 h
  have hmem : (b, instrs) ∈ (0, headCode (front ++ [.ret n])) :: laterBlocks (front ++ [.ret n]) ++
      [(panic, headCode panicCalls)] := by
    rw [hl]
    exact List.mem_append_right _ List.mem_cons_self
  rw [codeIn_append]
  rcases List.mem_append.1 hmem with hmem | hmem
  · have hkey : b ∈ ((0, headCode (front ++ [.ret n])) :: laterBlocks (front ++ [.ret n])).map (·.1) :=
      List.mem_map.2 ⟨_, hmem, rfl⟩
    refine ⟨code_ne_nil hmem, ?_⟩
    rw [codeIn_placed hbody hmem, codeIn_placed_eq_nil (Ne.symm (hne b hkey)) List.not_mem_nil,
      List.append_nil]
  · obtain ⟨rfl, rfl⟩ := Prod.mk.inj (List.mem_singleton.1 hmem)
    refine ⟨List.cons_ne_nil _ _, ?_⟩
    rw [codeIn_placed_eq_nil (hne 0 List.mem_cons_self)
        fun hlater => hne b (List.mem_cons_of_mem _ hlater) rfl,
      List.nil_append, codeIn_placed (List.nodup_singleton b) List.mem_cons_self]

/-! ## Compiling on the builder -/

section Compile

variable {σ : Type → Type} [Slab σ]

/-- A call that has to succeed (`?`). With its error, `compile` gives up the builder. -/
def must (checks : Bool) (m : Machine σ 4) (op : Managed.Op 4) :
    ExceptT PatchError Option (Option Value × Machine σ 4) :=
  ExceptT.mk ((m.exec checks op).map fun p => p.1.map fun value => (value, p.2))

/-- `create_block`, `n` times. -/
def createBlocks (checks : Bool) : Nat → Machine σ 4 → Option (List BlockId × Machine σ 4)
  | 0, m => some ([], m)
  | n + 1, m =>
      (m.builder.createBlock checks).bind fun (id, builder) =>
        (createBlocks checks n ⟨builder, m.handles⟩).map fun (ids, m) => (id :: ids, m)

/-- `new_param` on the entry. -/
def mustParam (checks : Bool) (m : Machine σ 4) :
    ExceptT PatchError Option (Value × Machine σ 4) := do
  let (value, m) ← must checks m .newParam
  return (← value, m)

/-- The calls on the handle, up to the first one that fails. -/
def runCalls (F : Families) (fns : Functions) (checks : Bool) (params : Params) :
    List BfCall → Machine σ 4 → ExceptT PatchError Option (Machine σ 4)
  | [], m => return m
  | call :: rest, m => do
      let op ← call.op F fns params
      let (_, m) ← must checks m op
      runCalls F fns checks params rest m

section Visits

variable (F : Families) (fns : Functions) (checks : Bool) (opts : CompileOptions) (params : Params)
  (panic : BlockId)

/-- The loop over the operations of a leaf. -/
def runLeaf : Int → List Op → Machine σ 4 → ExceptT PatchError Option (Machine σ 4)
  | _, [], m => return m
  | movement, op :: ops, m => do
      let emitted ← opCalls checks opts movement op
      let m ← runCalls F fns checks params emitted.1 m
      let checked ← checkCalls checks opts panic emitted.2
      let m ← runCalls F fns checks params checked.1 m
      runLeaf checked.2 ops m

/-- One visit. Between the calls of a bracket nothing is computed. -/
def runVisit (v : Visitor) (op : BfVisitOp) (m : Machine σ 4) :
    ExceptT PatchError Option (Visitor × Machine σ 4) :=
  match op with
  | .leaf ops => return (v, ← runLeaf F fns checks opts params panic 0 ops m)
  | op => do
      let (calls, v) ← visitCalls checks opts panic v op
      return (v, ← runCalls F fns checks params calls m)

def runVisits : Visitor → List BfVisitOp → Machine σ 4 → ExceptT PatchError Option (Machine σ 4)
  | _, [], m => return m
  | v, op :: ops, m => do
      let (v, m) ← runVisit F fns checks opts params panic v op m
      runVisits v ops m

end Visits

/-- `compile`, up to the program in memory. -/
def compile (F : Families) (fns : Functions) (library : StencilLibrary 4) (checks : Bool)
    (opts : CompileOptions) (allocator : Nat → Except PatchError (LoggedBuffer × Usize))
    (code : List U8) : ExceptT PatchError Option LoggedBuffer := do
  let tree ← BF.parse checks code
  let builder ← (PatchFunctionBuilder.new library : Option (PatchFunctionBuilder σ 4))
  let (blocks, m) ← createBlocks checks (blockCount tree.visit) ⟨builder, []⟩
  let (panic, builder) ← m.builder.createBlock checks
  let (_, m) ← must checks ⟨builder, m.handles⟩ .switchToEntry
  let (basePtr, m) ← mustParam checks m
  let (len, m) ← mustParam checks m
  let (index, m) ← mustParam checks m
  let params : Params := ⟨basePtr, len, index⟩
  let m ← runVisits F fns checks opts params panic ⟨blocks, [], 0⟩ tree.visit m
  let m ← runCalls F fns checks params [checkCall panic, .ret 0] m
  let (_, m) ← must checks m (.switchToBlock panic)
  let m ← runCalls F fns checks params panicCalls m
  let (map, stackSlots) ← ExceptT.mk (m.builder.finalizeInto checks allocator)
  -- `assert_eq!(program.stack_slots, 0)`
  if stackSlots = 0 then return map else ExceptT.lift none

end Compile

/-! ## A compile that succeeds -/

section Success

variable {α β : Type}

theorem ok_of_bind {x : ExceptT PatchError Option α} {f : α → ExceptT PatchError Option β} {b : β}
    (h : (x >>= f).run = some (.ok b)) :
    ∃ a, x.run = some (.ok a) ∧ (f a).run = some (.ok b) := by
  rw [ExceptT.run_bind] at h
  obtain ⟨res, hres, h⟩ := Option.bind_eq_some_iff.1 h
  cases res with
  | error e => cases h
  | ok a => exact ⟨a, hres, h⟩

theorem some_of_lift {x : Option α} {a : α}
    (h : (liftM x : ExceptT PatchError Option α).run = some (.ok a)) : x = some a := by
  cases x with
  | none => cases h
  | some b => rw [Except.ok.inj (Option.some.inj h)]

variable {σ : Type → Type} [Slab σ] {checks : Bool} {m m' : Machine σ 4}

theorem exec_of_must {op : Managed.Op 4} {v : Option Value}
    (h : (must checks m op).run = some (.ok (v, m'))) : m.exec checks op = some (.ok v, m') := by
  obtain ⟨⟨res, m''⟩, hexec, hout⟩ := Option.map_eq_some_iff.1 h
  cases res with
  | error e => cases hout
  | ok v' =>
      obtain ⟨rfl, rfl⟩ := Prod.mk.inj (Except.ok.inj hout)
      exact hexec

theorem exec_of_mustParam {v : Value} (h : (mustParam checks m).run = some (.ok (v, m'))) :
    m.exec checks .newParam = some (.ok (some v), m') := by
  obtain ⟨⟨value, mid⟩, hmust, h⟩ := ok_of_bind h
  obtain ⟨v', hvalue, h⟩ := ok_of_bind h
  obtain ⟨rfl, rfl⟩ := Prod.mk.inj (Except.ok.inj (Option.some.inj h))
  obtain rfl := some_of_lift hvalue
  exact exec_of_must hmust

theorem handles_of_newParam {v : Option Value} (h : m.exec checks .newParam = some (.ok v, m')) :
    m'.handles = m.handles := by
  obtain ⟨id, -, h⟩ := Option.bind_eq_some_iff.1 h
  obtain ⟨p, -, hout⟩ := Option.map_eq_some_iff.1 h
  exact (congrArg Machine.handles (Prod.mk.inj hout).2).symm

omit [Slab σ] in
theorem handles_of_opened {block : BlockId} {v : Option Value}
    {p : Except PatchError Unit × PatchFunctionBuilder σ 4} (h : m.opened block p = (.ok v, m')) :
    m'.handles = block :: m.handles := by
  obtain ⟨res, b⟩ := p
  cases res with
  | error e => cases (Prod.mk.inj h).1
  | ok u => exact (congrArg Machine.handles (Prod.mk.inj h).2).symm

/-! ### The calls of the visits -/

variable {F : Families} {fns : Functions} {opts : CompileOptions} {params : Params} {panic : BlockId}

theorem runCalls_append {calls more : List BfCall} {mid : Machine σ 4}
    (h : (runCalls F fns checks params calls m).run = some (.ok mid)) :
    (runCalls F fns checks params (calls ++ more) m).run = (runCalls F fns checks params more mid).run := by
  induction calls generalizing m with
  | nil =>
      obtain rfl := Except.ok.inj (Option.some.inj h)
      rfl
  | cons call calls ih =>
      obtain ⟨op, hop, h⟩ := ok_of_bind h
      obtain ⟨⟨v, next⟩, hmust, h⟩ := ok_of_bind h
      rw [List.cons_append, runCalls, ExceptT.run_bind, hop]
      show ((must checks m op >>= fun p => runCalls F fns checks params (calls ++ more) p.2).run) = _
      rw [ExceptT.run_bind, hmust]
      exact ih h

/-- A leaf that succeeds makes its calls. -/
theorem leafCalls_of_runLeaf {movement : Int} {ops : List Op}
    (h : (runLeaf F fns checks opts params panic movement ops m).run = some (.ok m')) :
    ∃ calls, leafCalls checks opts panic movement ops = some calls ∧
      (runCalls F fns checks params calls m).run = some (.ok m') := by
  induction ops generalizing movement m with
  | nil => exact ⟨[], rfl, h⟩
  | cons op ops ih =>
      obtain ⟨emitted, hemitted, h⟩ := ok_of_bind h
      obtain ⟨mid, hmid, h⟩ := ok_of_bind h
      obtain ⟨checked, hchecked, h⟩ := ok_of_bind h
      obtain ⟨last, hlast, h⟩ := ok_of_bind h
      obtain ⟨calls, hcalls, hrun⟩ := ih h
      refine ⟨emitted.1 ++ checked.1 ++ calls, ?_, ?_⟩
      · rw [leafCalls, some_of_lift hemitted, Option.bind_some, some_of_lift hchecked, Option.bind_some,
          hcalls]
        rfl
      · rw [List.append_assoc, runCalls_append hmid, runCalls_append hlast, hrun]

theorem visitCalls_of_runVisit {v v' : Visitor} {op : BfVisitOp}
    (h : (runVisit F fns checks opts params panic v op m).run = some (.ok (v', m'))) :
    ∃ calls, visitCalls checks opts panic v op = some (calls, v') ∧
      (runCalls F fns checks params calls m).run = some (.ok m') := by
  have hother : ∀ {x : Option (List BfCall × Visitor)},
      (do
        let (calls, v) ← x
        return (v, ← runCalls F fns checks params calls m) : ExceptT PatchError Option _).run =
          some (.ok (v', m')) →
      ∃ calls, x = some (calls, v') ∧ (runCalls F fns checks params calls m).run = some (.ok m') := by
    intro x h
    obtain ⟨⟨calls, v₁⟩, hcalls, h⟩ := ok_of_bind h
    obtain ⟨m₁, hrun, h⟩ := ok_of_bind h
    obtain ⟨rfl, rfl⟩ := Prod.mk.inj (Except.ok.inj (Option.some.inj h))
    exact ⟨calls, some_of_lift hcalls, hrun⟩
  cases op with
  | leaf ops =>
      obtain ⟨m₁, hleaf, h⟩ := ok_of_bind h
      obtain ⟨rfl, rfl⟩ := Prod.mk.inj (Except.ok.inj (Option.some.inj h))
      obtain ⟨calls, hcalls, hrun⟩ := leafCalls_of_runLeaf hleaf
      exact ⟨calls, by rw [visitCalls, hcalls]; rfl, hrun⟩
  | intoLoop => exact hother h
  | outOfLoop => exact hother h

/-- Visits that succeed make their calls. -/
theorem visitAllCalls_of_runVisits {v : Visitor} {visits : List BfVisitOp}
    (h : (runVisits F fns checks opts params panic v visits m).run = some (.ok m')) :
    ∃ calls v', visitAllCalls checks opts panic v visits = some (calls, v') ∧
      (runCalls F fns checks params calls m).run = some (.ok m') := by
  induction visits generalizing v m with
  | nil => exact ⟨[], v, rfl, h⟩
  | cons op visits ih =>
      obtain ⟨⟨v₁, mid⟩, hvisit, h⟩ := ok_of_bind h
      obtain ⟨calls, hcalls, hrun⟩ := visitCalls_of_runVisit hvisit
      obtain ⟨more, v', hmore, hrest⟩ := ih h
      refine ⟨calls ++ more, v', ?_, ?_⟩
      · rw [visitAllCalls, hcalls, Option.bind_some, hmore]
        rfl
      · rw [runCalls_append hrun, hrest]

end Success

section Image

variable {σ : Type → Type} [Slab σ] [LawfulSlab σ] {F : Families} {fns : Functions}
  {library : StencilLibrary 4} {checks : Bool} {params : Params}
  {m m' : Machine σ 4} {record : List (Nat × CopiedStencil)}

/-- The runs of calls on generated families, with the stencils they copy. -/
abbrev Draws (σ : Type → Type) [Slab σ] (checks : Bool) (library : StencilLibrary 4) (m : Machine σ 4)
    (record : List (Nat × CopiedStencil)) : Prop :=
  (((machineSystem σ checks library).recorded (emitted checks)).guard fun _ op =>
    op.Generated library).Reachable ⟨m, record⟩

omit [LawfulSlab σ] in
theorem Draws.call (h : Draws σ checks library m record) {op : Managed.Op 4} {out : Machine.Outcome}
    (hop : op.Generated library) (hexec : m.exec checks op = some (out, m')) :
    Draws σ checks library m' (record ++ emitted checks m op) :=
  .step op h ⟨hop, ⟨out, hexec⟩, rfl⟩

omit [LawfulSlab σ] in
/-- A call that copies nothing. -/
theorem Draws.silent (h : Draws σ checks library m record) {op : Managed.Op 4} {out : Machine.Outcome}
    (hexec : m.exec checks op = some (out, m')) (hcall : m.blockCall op = none)
    (hop : op.Generated library) : Draws σ checks library m' record := by
  have hnext := h.call hop hexec
  rw [emitted, hcall, List.append_nil] at hnext
  exact hnext

theorem Draws.new_block (h : Draws σ checks library m record) {id : BlockId}
    {builder : PatchFunctionBuilder σ 4} (hcreate : m.builder.createBlock checks = some (id, builder)) :
    Draws σ checks library ⟨builder, m.handles⟩ record ∧
      builder.blocks.length = m.builder.blocks.length + 1 ∧
        id = BitVec.ofNat 16 m.builder.blocks.length := by
  have hexec : m.exec checks .createBlock = some (.ok none, ⟨builder, m.handles⟩) := by
    rw [Machine.exec, hcreate]
    rfl
  refine ⟨h.silent hexec rfl trivial, ?_, ?_⟩
  · rw [(PatchFunctionBuilder.createBlock_effect hcreate).2.2.2, List.length_append, List.length_singleton]
  · apply BitVec.eq_of_toNat_eq
    rw [createBlock_id hcreate, BitVec.toNat_ofNat]

/-- The blocks get the ids behind those that exist. -/
theorem Draws.new_blocks (h : Draws σ checks library m record) {n : Nat} {ids : List BlockId}
    (hcreate : createBlocks checks n m = some (ids, m')) :
    Draws σ checks library m' record ∧ m'.handles = m.handles ∧
      m'.builder.blocks.length = m.builder.blocks.length + n ∧
        ids = (List.range n).map fun i => BitVec.ofNat 16 (m.builder.blocks.length + i) := by
  induction n generalizing m ids with
  | zero =>
      obtain ⟨rfl, rfl⟩ := Prod.mk.inj (Option.some.inj hcreate)
      exact ⟨h, rfl, rfl, rfl⟩
  | succ n ih =>
      obtain ⟨⟨id, builder⟩, hone, hrest⟩ := Option.bind_eq_some_iff.1 hcreate
      obtain ⟨⟨rest, last⟩, hmore, hout⟩ := Option.map_eq_some_iff.1 hrest
      obtain ⟨rfl, rfl⟩ := Prod.mk.inj hout
      obtain ⟨hdraws, hlength, rfl⟩ := h.new_block hone
      obtain ⟨hlast, hhandles, hcount, rfl⟩ := ih hdraws hmore
      have hcount : last.builder.blocks.length = builder.blocks.length + n := hcount
      refine ⟨hlast, hhandles, by omega, ?_⟩
      rw [List.range_succ_eq_map, List.map_cons, List.map_map, hlength]
      congr 1
      apply List.map_congr_left
      intro i _
      rw [Function.comp_apply, Nat.add_assoc, Nat.add_comm 1 i]

omit [LawfulSlab σ] in
theorem Draws.param (h : Draws σ checks library m record) {v : Value}
    (hparam : (mustParam checks m).run = some (.ok (v, m'))) :
    Draws σ checks library m' record ∧ m'.handles = m.handles :=
  ⟨h.silent (exec_of_mustParam hparam) rfl trivial, handles_of_newParam (exec_of_mustParam hparam)⟩

omit [LawfulSlab σ] in
theorem Draws.switched (h : Draws σ checks library m record) {block : BlockId} {v : Option Value}
    (hswitch : (must checks m (.switchToBlock block)).run = some (.ok (v, m'))) :
    Draws σ checks library m' record ∧ m'.handles = block :: m.handles := by
  have hexec := exec_of_must hswitch
  obtain ⟨p, -, hp⟩ := Option.map_eq_some_iff.1 hexec
  exact ⟨h.silent hexec rfl trivial, handles_of_opened hp⟩

/-- A new builder with the blocks of `compile`. -/
theorem draws_blocks {builder builder' : PatchFunctionBuilder σ 4} {n : Nat} {blocks : List BlockId}
    {panic : BlockId} (hnew : PatchFunctionBuilder.new library = some builder)
    (hblocks : createBlocks checks n ⟨builder, []⟩ = some (blocks, m))
    (hpanic : m.builder.createBlock checks = some (panic, builder')) :
    Draws σ checks library ⟨builder', m.handles⟩ [] ∧ m.handles = [] ∧ blocks = blockIds n ∧
      panic = panicId n := by
  have hstart : Draws σ checks library ⟨builder, []⟩ [] :=
    .init ⟨congrArg (Option.map _) hnew, rfl⟩
  have hone : (⟨builder, []⟩ : Machine σ 4).builder.blocks.length = 1 := by
    rw [(PatchFunctionBuilder.new_cases hnew).2]
    rfl
  obtain ⟨hdraws, hhandles, hcount, rfl⟩ := hstart.new_blocks hblocks
  obtain ⟨hlast, -, rfl⟩ := hdraws.new_block hpanic
  refine ⟨hlast, hhandles, ?_, ?_⟩
  · apply List.map_congr_left
    intro i _
    rw [hone, Nat.add_comm]
  · rw [hcount, hone, Nat.add_comm]
    rfl

/-- The stencil is a copy of the instruction, in its block. -/
structure CopiedAs (F : Families) (fns : Functions) (library : StencilLibrary 4)
    (p : BlockId × Instr) (q : Nat × CopiedStencil) : Prop where
  block : q.1 = p.1.toNat
  copy : CopyOf library (F.source fns p.2.stencil) p.2.jumps q.2

/-- One call of the body. -/
theorem Draws.call_copied (h : Draws σ checks library m record) (hF : F.Generated fns library) {id : BlockId}
    {rest : List BlockId} (hhandles : m.handles = id :: rest) {call : BfCall} {calls : List BfCall}
    (hrun : (runCalls F fns checks params (call :: calls) m).run = some (.ok m')) :
    ∃ s mid, Draws σ checks library mid (record ++ [s]) ∧ mid.handles = call.handle id ++ rest ∧
      CopiedAs F fns library (id, call.instr) s ∧
        (runCalls F fns checks params calls mid).run = some (.ok m') := by
  obtain ⟨op, hop, hrun⟩ := ok_of_bind hrun
  obtain ⟨⟨v, mid⟩, hmust, hrun⟩ := ok_of_bind hrun
  obtain ⟨hsource, htargets, hhandle⟩ := BfCall.op_passes (some_of_lift hop) id
  have hexec := exec_of_must hmust
  have hlibrary : ∀ b ∈ m.codes, b.library = library := by
    intro b hb
    obtain ⟨i, hi⟩ := List.mem_iff_getElem?.1 hb
    exact ((pictured_of_generated h).joined i b hi).sound.same
  obtain ⟨s, hs, hcopy, hafter⟩ := copy_of_exec hlibrary hhandles hsource hexec
  have hdraws := h.call (Op.generated_of_source hsource (hF call.instr.stencil)) hexec
  rw [hs] at hdraws
  rw [hhandle] at hafter
  rw [htargets] at hcopy
  exact ⟨_, mid, hdraws, hafter, ⟨rfl, hcopy⟩, hrun⟩

/-- **The calls of a body copy its instructions**, block by block. -/
theorem Draws.calls_copied (h : Draws σ checks library m record) (hF : F.Generated fns library)
    {front : List BfCall} {n : Usize} (hret : ∀ n, .ret n ∉ front) {id : BlockId} {rest : List BlockId}
    (hhandles : m.handles = id :: rest)
    (hrun : (runCalls F fns checks params (front ++ [.ret n]) m).run = some (.ok m')) :
    ∃ copies, Draws σ checks library m' (record ++ copies) ∧ m'.handles = rest ∧
      List.Forall₂ (CopiedAs F fns library) (placed id (front ++ [.ret n])) copies := by
  induction front generalizing m record id with
  | nil =>
      obtain ⟨s, mid, hdraws, hafter, hcopy, hend⟩ := h.call_copied hF hhandles hrun
      obtain rfl := Except.ok.inj (Option.some.inj hend)
      exact ⟨[s], hdraws, hafter, .cons hcopy .nil⟩
  | cons call front ih =>
      obtain ⟨s, mid, hdraws, hafter, hcopy, hrest⟩ := h.call_copied hF hhandles hrun
      -- a call in front of the return keeps the handle, on its block or on the next one
      obtain ⟨next, hnext, hplaced⟩ : ∃ next, call.handle id = [next] ∧
          placed id (call :: (front ++ [.ret n])) = (id, call.instr) :: placed next (front ++ [.ret n]) := by
        cases call with
        | emit stencil => exact ⟨id, rfl, rfl⟩
        | branch stencil jumps => exact ⟨id, rfl, rfl⟩
        | endBranch stencil jumps next => exact ⟨next, rfl, rfl⟩
        | ret n => exact absurd List.mem_cons_self (hret n)
      rw [hnext] at hafter
      obtain ⟨copies, hlast, hleft, hcopies⟩ :=
        ih hdraws (fun n hn => hret n (List.mem_cons_of_mem _ hn)) hafter hrest
      rw [List.append_assoc] at hlast
      rw [List.cons_append, hplaced]
      exact ⟨s :: copies, hlast, hleft, .cons hcopy hcopies⟩

/-- The stencils of a block are copies of its code. -/
theorem copies_in_block {code : List (BlockId × Instr)}
    (h : List.Forall₂ (CopiedAs F fns library) code record) (b : BlockId) :
    List.Forall₂ (fun instr s => CopyOf library (F.source fns instr.stencil) instr.jumps s)
      (codeIn b code) (stencilsOf record b.toNat) := by
  induction h with
  | nil => exact .nil
  | @cons p q code record hcopy _ ih =>
      obtain ⟨cur, instr⟩ := p
      obtain ⟨i, s⟩ := q
      obtain rfl : i = cur.toNat := hcopy.block
      by_cases hb : cur = b
      · subst hb
        rw [codeIn_cons_self, stencilsOf, List.filterMap_cons]
        simp only [if_true]
        exact .cons hcopy.copy ih
      · have hne : cur.toNat ≠ b.toNat := fun heq => hb (BitVec.eq_of_toNat_eq heq)
        rw [codeIn_cons_ne hb, stencilsOf, List.filterMap_cons]
        simp only [if_neg hne]
        exact ih

omit [LawfulSlab σ] in
/-- The calls of a body, with the return at their end. -/
theorem bodyCalls_front {opts : CompileOptions} {panic : BlockId} {blocks : List BlockId} {tree : BF}
    {calls : List BfCall} (htape : opts.saturating = true → 1 ≤ opts.tapeSize.toNat)
    (hweight : weight tree.ops < 2 ^ 31) (hblocks : blocks.length = blockCount tree.visit)
    (h : bodyCalls checks opts panic blocks tree = some calls) :
    ∃ front, calls = front ++ [.ret 0] ∧ ∀ n, .ret n ∉ front := by
  obtain ⟨visited, v', hvisit, -, hvisited⟩ :=
    @visit_spec opts panic checks htape tree ⟨blocks, [], 0⟩ hweight (Nat.le_of_eq hblocks.symm)
  rw [bodyCalls, hvisit] at h
  obtain rfl := Option.some.inj h
  refine ⟨visited ++ [checkCall panic], by rw [List.append_assoc]; rfl, ?_⟩
  intro n hn
  rcases List.mem_append.1 hn with hn | hn
  · exact hvisited.noRet n hn
  · cases List.mem_singleton.1 hn

/-- What `compile` has built in front of `finalize`: the calls of the body, the builder, and the stencils. -/
structure Built (F : Families) (fns : Functions) (library : StencilLibrary 4) (checks : Bool)
    (opts : CompileOptions) (tree : BF) (calls : List BfCall) (m : Machine σ 4)
    (copies : List (Nat × CopiedStencil)) : Prop where
  body : bodyCalls checks opts (panicId (blockCount tree.visit)) (blockIds (blockCount tree.visit)) tree =
    some calls
  draws : Draws σ checks library m copies
  copied : List.Forall₂ (CopiedAs F fns library)
    (placed 0 calls ++ placed (panicId (blockCount tree.visit)) panicCalls) copies

theorem built_of_ok {opts : CompileOptions} {code : List U8} {tree : BF} {map' : LoggedBuffer}
    {allocator : Nat → Except PatchError (LoggedBuffer × Usize)}
    (htape : opts.saturating = true → 1 ≤ opts.tapeSize.toNat) (hF : F.Generated fns library)
    (hparse : parse checks code = some tree) (hweight : weight tree.ops < 2 ^ 31)
    (h : (compile (σ := σ) F fns library checks opts allocator code).run = some (.ok map')) :
    ∃ calls m copies, @Built σ _ F fns library checks opts tree calls m copies ∧
      m.builder.finalizeInto checks allocator = some (.ok (map', 0)) := by
  obtain ⟨tree', htree, h⟩ := ok_of_bind h
  obtain rfl := Option.some.inj (hparse.symm.trans (some_of_lift htree))
  obtain ⟨builder, hbuilder, h⟩ := ok_of_bind h
  obtain ⟨⟨blocks, m₁⟩, hblocks, h⟩ := ok_of_bind h
  obtain ⟨⟨panic, builder₂⟩, hpanic, h⟩ := ok_of_bind h
  obtain ⟨⟨v₃, m₃⟩, hentry, h⟩ := ok_of_bind h
  obtain ⟨⟨basePtr, m₄⟩, hbase, h⟩ := ok_of_bind h
  obtain ⟨⟨len, m₅⟩, hlen, h⟩ := ok_of_bind h
  obtain ⟨⟨index, m₆⟩, hindex, h⟩ := ok_of_bind h
  obtain ⟨m', hvisits, h⟩ := ok_of_bind h
  obtain ⟨m₇, hend, h⟩ := ok_of_bind h
  obtain ⟨⟨v₈, m₈⟩, hswitch, h⟩ := ok_of_bind h
  obtain ⟨m₉, hlast, h⟩ := ok_of_bind h
  obtain ⟨⟨map, stack⟩, hfinal, h⟩ := ok_of_bind h
  have hzero : stack = 0 ∧ map = map' := by
    have h : (if stack = 0 then pure map else ExceptT.lift none :
        ExceptT PatchError Option LoggedBuffer).run = some (.ok map') := h
    split at h
    · next hstack => exact ⟨hstack, Except.ok.inj (Option.some.inj h)⟩
    · cases h
  obtain ⟨hdraws, hhandles, rfl, rfl⟩ :=
    draws_blocks (some_of_lift hbuilder) (some_of_lift hblocks) (some_of_lift hpanic)
  -- the entry and its parameters
  obtain ⟨hdraws₃, hhandles₃⟩ := hdraws.switched hentry
  obtain ⟨hdraws₄, hhandles₄⟩ := hdraws₃.param hbase
  obtain ⟨hdraws₅, hhandles₅⟩ := hdraws₄.param hlen
  obtain ⟨hdraws₆, hhandles₆⟩ := hdraws₅.param hindex
  have hentered : m₆.handles = [0] := by
    rw [hhandles₆, hhandles₅, hhandles₄, hhandles₃]
    exact congrArg _ hhandles
  -- the body
  obtain ⟨visited, v', hvisited, hrun⟩ := visitAllCalls_of_runVisits hvisits
  have hbodyCalls : bodyCalls checks opts (panicId (blockCount tree.visit))
      (blockIds (blockCount tree.visit)) tree =
        some (visited ++ [checkCall (panicId (blockCount tree.visit)), .ret 0]) := by
    rw [bodyCalls, hvisited]
    rfl
  have hbody := (runCalls_append hrun).trans hend
  obtain ⟨front, hfront, hret⟩ := bodyCalls_front htape hweight (blockIds_length _) hbodyCalls
  rw [hfront] at hbody
  obtain ⟨copies, hdraws₇, hhandles₇, hcopies⟩ := hdraws₆.calls_copied hF hret hentered hbody
  rw [← hfront] at hcopies
  -- the block `panic`
  obtain ⟨hdraws₈, hhandles₈⟩ := hdraws₇.switched hswitch
  rw [hhandles₇] at hhandles₈
  obtain ⟨last, hdraws₉, -, hlasts⟩ :=
    hdraws₈.calls_copied hF (fun _ => List.not_mem_nil) hhandles₈ hlast
  obtain ⟨rfl, rfl⟩ := hzero
  exact ⟨_, m₉, copies ++ last, ⟨hbodyCalls, hdraws₉, List.rel_append hcopies hlasts⟩, hfinal⟩

/-- A block into which something was copied is there. -/
theorem block_of_copies (h : Draws σ checks library m record) {b : BlockId} {instrs : List Instr}
    (hne : instrs ≠ []) {R : Instr → CopiedStencil → Prop}
    (hcopies : List.Forall₂ R instrs (stencilsOf record b.toNat)) : b.toNat < m.builder.blocks.length := by
  have hstencils : stencilsOf record b.toNat ≠ [] := by
    intro hnil
    rw [hnil] at hcopies
    exact hne (List.forall₂_nil_right_iff.1 hcopies)
  obtain ⟨s, hs⟩ := List.exists_mem_of_ne_nil _ hstencils
  obtain ⟨p, hp, hps⟩ := List.mem_filterMap.1 hs
  have hin : p.1 < m.codes.length := (pictured_of_generated h).inside p hp
  split at hps
  · next heq =>
    rw [heq, Machine.codes, List.length_map] at hin
    exact hin
  · cases hps

/-- **The code of a text is what the program's bytes are.** When `compile` succeeds, every block of the
program is the image of stencils that are copies of its code, one by one. -/
theorem compile_image {opts : CompileOptions} {code : List U8} {map' : LoggedBuffer}
    {allocator : Nat → Except PatchError (LoggedBuffer × Usize)} (hroom : Room code)
    (htape : opts.saturating = true → 1 ≤ opts.tapeSize.toNat) (hF : F.Generated fns library)
    (hlong : IsGenerated library library.longJump)
    (h : (compile (σ := σ) F fns library checks opts allocator code).run = some (.ok map')) :
    ∃ G len map base offsets, compileText checks opts code = some G ∧ allocator len = .ok (map, base) ∧
      ∀ b instrs, G b = some instrs → ∃ off stencils, offsets.offsets[b.toNat]? = some off ∧
        List.Forall₂ (fun instr s => CopyOf library (F.source fns instr.stencil) instr.jumps s)
          instrs stencils ∧
        Image library.empty base off offsets stencils map'.bytes := by
  obtain ⟨tree, hparse, -, -, hweight, hloops, -, -⟩ := parse_spec checks hroom.length
  have hlength := hroom.length
  have hblocks := hroom.blocks
  have hcount := blockCount_visit tree
  obtain ⟨calls, m, copies, hbuilt, hfinal⟩ := built_of_ok htape hF hparse (by omega) h
  have hids := @blockIds_nodup (blockCount tree.visit) (by omega)
  obtain ⟨calls', hcalls, hnames, -⟩ :=
    bodyCalls_spec checks htape (by omega) (blockIds_length (blockCount tree.visit)) hids
  obtain rfl : calls = calls' := Option.some.inj (hbuilt.body.symm.trans hcalls)
  have hnodup := ((hnames.cons 0).append_right [panicId (blockCount tree.visit)]).nodup_iff.2 hids
  obtain ⟨front, rfl, -⟩ := bodyCalls_front htape (by omega) (blockIds_length _) hbuilt.body
  obtain ⟨map, base, hmemory, himage⟩ := program_image hbuilt.draws hlong hfinal
  refine ⟨graphOf (panicId (blockCount tree.visit)) (front ++ [.ret 0]), m.builder.programLen, map, base,
    (ProgramBlocks.fromLens m.builder.extents).1, ?_, hmemory, ?_⟩
  · rw [compileText, hparse, Option.bind_some]
    simp only [hcalls, Option.map_some]
  · intro b instrs hG
    obtain ⟨hne, hcode⟩ := codeIn_graph hnodup hG
    have hcopies := copies_in_block hbuilt.copied b
    rw [hcode] at hcopies
    have hinside := block_of_copies hbuilt.draws hne hcopies
    refine ⟨_, _, ?_, hcopies, himage b.toNat hinside⟩
    apply (ProgramBlocks.fromLens_spec _).2.1
    rw [PatchFunctionBuilder.extents, List.length_map]
    exact hinside

end Image

/-! ## A program with one operation -/

/-- `inc byte [r12 + r14]`, `cmp r14, r13` with its two jumps, `mov eax, n` and `mov rax, n` in front of a
return, and the long jump. -/
def plusLibrary : StencilLibrary 4 where
  code := [0x43, 0xFE, 0x04, 0x34, 0xE9, 0, 0, 0, 0,
    0x4D, 0x39, 0xEE, 0x0F, 0x83, 0, 0, 0, 0, 0xE9, 0, 0, 0, 0,
    0xB8, 0, 0, 0, 0, 0xC3,
    0x48, 0x8B, 0x05, 0, 0, 0, 0, 0xC3,
    0xFF, 0x25, 0, 0, 0, 0]
  empty := [0xE9, 0, 0, 0, 0]
  longJump := ⟨[holeField, .new], [⟨37, 6, 0⟩, ⟨37, 6, 0⟩]⟩
  rtSymbols := []

/-- The sources of the families: the parameters are in the registers. -/
def registerCalls (IN OUT : Nat) (code : CodeRange) (relocations : List Relocation) : List StencilCall :=
  [⟨[], code, ⟨(List.range IN).map fun i => .register (BitVec.ofNat 16 i),
    (List.range OUT).map fun i => .register (BitVec.ofNat 16 i)⟩, false, relocations⟩]

/-- The family that these sources build. -/
def builtFamily {IN OUT HOLES JUMPS : Nat} (calls : List StencilCall) :
    StencilFamily IN OUT 4 HOLES JUMPS :=
  match (StencilFamilyBuilder.new ⟨BitVec.ofNat 16 IN, BitVec.ofNat 16 OUT, 4, BitVec.ofNat 16 HOLES,
      BitVec.ofNat 16 JUMPS, []⟩).addStencils true calls with
  | some (.ok (), b) => ⟨b.finalize.relocationData, b.finalize.stencils⟩
  | _ => ⟨[], []⟩

def addCalls : List StencilCall := registerCalls 3 0 ⟨0, 9⟩ [⟨0x00002FFC20810005⟩]

def testCalls : List StencilCall :=
  registerCalls 3 0 ⟨9, 23⟩ [⟨0x00012FFC20810005⟩, ⟨0x00002FFC2081000A⟩]

def moveCalls : List StencilCall := registerCalls 1 1 ⟨4, 9⟩ [jumpField]

def jmpCalls : List StencilCall := registerCalls 0 0 ⟨4, 9⟩ [jumpField]

def retCalls : List StencilCall :=
  [⟨[], ⟨23, 29⟩, ⟨[], []⟩, false, [⟨0x0000000020010001⟩]⟩,
    ⟨[], ⟨29, 37⟩, ⟨[], []⟩, true, [⟨0x00000FFC20810003⟩]⟩]

def plusFamilies : Families where
  add1 := builtFamily addCalls
  addn := builtFamily addCalls
  sub1 := builtFamily addCalls
  subn := builtFamily addCalls
  check := builtFamily testCalls
  left1 := builtFamily moveCalls
  leftn := builtFamily moveCalls
  left1Sat := builtFamily moveCalls
  leftnSat := builtFamily moveCalls
  right1 := builtFamily moveCalls
  rightn := builtFamily moveCalls
  right1Sat := builtFamily moveCalls
  rightnSat := builtFamily moveCalls
  print := builtFamily addCalls
  read := builtFamily addCalls
  ifZero := builtFamily testCalls
  ifZeroUnchecked := builtFamily testCalls
  jmp := builtFamily jmpCalls
  ret := builtFamily retCalls
  set0 := builtFamily addCalls
  addTo := builtFamily addCalls

def plusOptions : CompileOptions := ⟨false, false, 16⟩

/-- The bytes of the entry, where the jumps to the next stencil are cut off, and of `panic`. -/
def plusBytes : List U8 :=
  [0x43, 0xFE, 0x04, 0x34, 0x4D, 0x39, 0xEE, 0x0F, 0x83, 6, 0, 0, 0, 0xB8, 0, 0, 0, 0, 0xC3,
    0x48, 0x8B, 0x05, 1, 0, 0, 0, 0xC3, 0xFF, 0xFF, 0xFF, 0xFF, 0xFF, 0xFF, 0xFF, 0xFF]

theorem generated_plusFamilies (fns : Functions) : plusFamilies.Generated fns plusLibrary := by
  have hadd : IsGenerated plusLibrary (builtFamily addCalls : StencilFamily 3 0 4 0 1) :=
    isGenerated_of_generates ⟨3, 0, 4, 0, 1, []⟩ addCalls (by decide +kernel)
  have haddn : IsGenerated plusLibrary (builtFamily addCalls : StencilFamily 3 0 4 1 1) :=
    isGenerated_of_generates ⟨3, 0, 4, 1, 1, []⟩ addCalls (by decide +kernel)
  have hcheck : IsGenerated plusLibrary (builtFamily testCalls : StencilFamily 3 0 4 0 2) :=
    isGenerated_of_generates ⟨3, 0, 4, 0, 2, []⟩ testCalls (by decide +kernel)
  have htest : IsGenerated plusLibrary (builtFamily testCalls : StencilFamily 3 0 4 0 3) :=
    isGenerated_of_generates ⟨3, 0, 4, 0, 3, []⟩ testCalls (by decide +kernel)
  have hmove : IsGenerated plusLibrary (builtFamily moveCalls : StencilFamily 1 1 4 0 1) :=
    isGenerated_of_generates ⟨1, 1, 4, 0, 1, []⟩ moveCalls (by decide +kernel)
  have hmoven : IsGenerated plusLibrary (builtFamily moveCalls : StencilFamily 1 1 4 1 1) :=
    isGenerated_of_generates ⟨1, 1, 4, 1, 1, []⟩ moveCalls (by decide +kernel)
  have hmoveSat : IsGenerated plusLibrary (builtFamily moveCalls : StencilFamily 1 1 4 2 1) :=
    isGenerated_of_generates ⟨1, 1, 4, 2, 1, []⟩ moveCalls (by decide +kernel)
  have hjmp : IsGenerated plusLibrary (builtFamily jmpCalls : StencilFamily 0 0 4 0 1) :=
    isGenerated_of_generates ⟨0, 0, 4, 0, 1, []⟩ jmpCalls (by decide +kernel)
  have hret : IsGenerated plusLibrary (builtFamily retCalls : StencilFamily 0 0 4 1 0) :=
    isGenerated_of_generates ⟨0, 0, 4, 1, 0, []⟩ retCalls (by decide +kernel)
  intro stencil
  cases stencil with
  | add1 | sub1 | set0 => exact hadd
  | addn | subn | print | read | addTo => exact haddn
  | check | ifZeroUnchecked => exact hcheck
  | ifZero => exact htest
  | left1 | left1Sat | right1 => exact hmove
  | leftn | leftnSat | rightn | right1Sat => exact hmoven
  | rightnSat => exact hmoveSat
  | jmp => exact hjmp
  | ret => exact hret

/-- `+`, in two blocks. -/
theorem compile_image_plus : ∃ (map' : LoggedBuffer) (G : Graph) (base : Usize) (offsets : ProgramBlocks),
    (compile (σ := VecSlab) plusFamilies ⟨0, 0⟩ plusLibrary true plusOptions (memoryAt 0x1000) [0x2B]).run =
        some (.ok map') ∧
      map'.bytes = plusBytes ∧ compileText true plusOptions [0x2B] = some G ∧
        ∀ b instrs, G b = some instrs → ∃ off stencils, offsets.offsets[b.toNat]? = some off ∧
          List.Forall₂ (fun instr s =>
            CopyOf plusLibrary (plusFamilies.source ⟨0, 0⟩ instr.stencil) instr.jumps s) instrs stencils ∧
          Image plusLibrary.empty base off offsets stencils plusBytes := by
  have hrun : ((compile (σ := VecSlab) plusFamilies ⟨0, 0⟩ plusLibrary true plusOptions (memoryAt 0x1000)
      [0x2B]).run.map fun res => res.toOption.map (·.bytes)) = some (some plusBytes) := by
    decide +kernel
  obtain ⟨res, hres, hbytes⟩ := Option.map_eq_some_iff.1 hrun
  cases res with
  | error e => cases hbytes
  | ok map' =>
      have hbytes : map'.bytes = plusBytes := Option.some.inj hbytes
      obtain ⟨G, len, map, base, offsets, hG, -, himage⟩ := compile_image ⟨by decide, by decide⟩
        (fun hsat => by cases hsat) (generated_plusFamilies ⟨0, 0⟩)
        (isGenerated_of_generates ⟨0, 0, 4, 1, 0, []⟩
          [⟨[], ⟨37, 43⟩, ⟨[], []⟩, false, [holeField]⟩,
            ⟨[], ⟨37, 43⟩, ⟨[], []⟩, true, [holeField]⟩]
          (by decide +kernel)) hres
      rw [hbytes] at himage
      exact ⟨map', G, base, offsets, hres, hbytes, hG, himage⟩

end Patchouly.Bf
