import Patchouly.Bf.Parse
import Patchouly.Bf.Stencils
import Patchouly.Managed.Builder

/-!
# Compiling (`examples/bf/src/main.rs`)

The second visitor of `compile` turns every visit into calls of the block handle. `visitCalls` are the calls
of one visit, with the blocks that are left, the open loops and the current block; `bodyCalls` are the
calls of a whole tree with the check and the return behind it. A panic is `none`: a slice without two
blocks, a close without a loop, and overflows with `checks`.
-/

set_option autoImplicit false

namespace Patchouly.Bf

open Patchouly.Lib Patchouly.Core Patchouly.Managed

structure CompileOptions where
  debug : Bool
  saturating : Bool
  tapeSize : Usize

/-- A call of the block handle. `ret` takes the result. -/
inductive BfCall where
  | emit (stencil : BfStencil)
  | branch (stencil : BfStencil) (jumps : List JumpScope)
  | endBranch (stencil : BfStencil) (jumps : List JumpScope) (next : BlockId)
  | ret (n : Usize)
  deriving DecidableEq

section Visitor

variable (checks : Bool) (opts : CompileOptions) (panic : BlockId)

/-- The call of an operation, and the movement behind it. -/
def opCalls (movement : Int) : Op → Option (List BfCall × Int)
  | .incDec n =>
      if n = 0 then some ([], movement)
      else if n = 1 then some ([.emit .add1], movement)
      else if n = -1 then some ([.emit .sub1], movement)
      else if 0 < n then some ([.emit (.addn (BitVec.ofNat 64 n.natAbs))], movement)
      else some ([.emit (.subn (BitVec.ofNat 64 n.natAbs))], movement)
  | .leftRight n =>
      if n = 0 then some ([], movement)
      else if n = 1 then
        if opts.saturating then
          (plainSub checks opts.tapeSize 1).map fun lim => ([.emit (.right1Sat lim)], movement)
        else (plainI32 checks (movement + 1)).map fun movement => ([.emit .right1], movement)
      else if n = -1 then
        if opts.saturating then some ([.emit .left1Sat], movement)
        else (plainI32 checks (movement - 1)).map fun movement => ([.emit .left1], movement)
      else if opts.saturating then
        if 0 < n then
          (plainSub checks opts.tapeSize 1).map fun lim =>
            ([.emit (.rightnSat (BitVec.ofInt 64 n) lim)], movement)
        else some ([.emit (.leftnSat (BitVec.ofNat 64 n.natAbs))], movement)
      else
        (plainI32 checks (movement + n)).map fun movement =>
          ([.emit (if 0 < n then .rightn (BitVec.ofNat 64 n.natAbs)
            else .leftn (BitVec.ofNat 64 n.natAbs))], movement)
  | .input => some ([.emit .read], movement)
  | .output => some ([.emit .print], movement)
  | .setZero => some ([.emit .set0], movement)
  | .addTo n =>
      (plainI32 checks (movement + n)).map fun movement =>
        ([.emit (.addTo (BitVec.ofInt 64 n))], movement)

/-- `panic` behind a check that fails. -/
def checkCall : BfCall := .branch .check [.next, .same panic]

/-- The check behind an operation. -/
def checkCalls (movement : Int) : Option (List BfCall × Int) :=
  (plainI32 checks movement.natAbs).map fun size =>
    if 1024 < size ∧ opts.saturating = false then ([checkCall panic], 0) else ([], movement)

def leafCalls : Int → List Op → Option (List BfCall)
  | _, [] => some []
  | movement, op :: ops =>
      (opCalls checks opts movement op).bind fun emitted =>
        (checkCalls checks opts panic emitted.2).bind fun checked =>
          (leafCalls checked.2 ops).map fun rest => emitted.1 ++ checked.1 ++ rest

/-- What the visitor holds: the slice of the blocks that are left, the start and the tail of each open
loop, and the block of the handle. -/
structure Visitor where
  blocks : List BlockId
  loopStack : List (BlockId × BlockId)
  current : BlockId

/-- The stencil of a loop's test. -/
def testStencil : BfStencil := if opts.saturating then .ifZeroUnchecked else .ifZero

/-- The jumps of a loop's test: out of the loop, into it, and to `panic`. -/
def testJumps (out into : JumpScope) : List JumpScope :=
  if opts.saturating then [out, into] else [out, into, .same panic]

def visitCalls (v : Visitor) : BfVisitOp → Option (List BfCall × Visitor)
  | .leaf ops => (leafCalls checks opts panic 0 ops).map fun calls => (calls, v)
  | .intoLoop =>
      match v.blocks with
      | next :: rest =>
          match rest.getLast? with
          | some tail =>
              some ([.endBranch .jmp [.same next] next,
                .branch (testStencil opts) (testJumps opts panic (.same tail) .next)],
                ⟨rest.dropLast, (next, tail) :: v.loopStack, next⟩)
          | none => none
      | [] => none
  | .outOfLoop =>
      match v.loopStack with
      | (start, tail) :: loopStack =>
          some ([.endBranch (testStencil opts) (testJumps opts panic (.same tail) (.same start)) tail],
            ⟨v.blocks, loopStack, tail⟩)
      | [] => none

def visitAllCalls : Visitor → List BfVisitOp → Option (List BfCall × Visitor)
  | v, [] => some ([], v)
  | v, op :: ops =>
      (visitCalls checks opts panic v op).bind fun visited =>
        (visitAllCalls visited.2 ops).map fun rest => (visited.1 ++ rest.1, rest.2)

end Visitor

/-- The calls on the entry's handle for a tree whose loops take the blocks `blocks`. -/
def bodyCalls (checks : Bool) (opts : CompileOptions) (panic : BlockId) (blocks : List BlockId)
    (tree : BF) : Option (List BfCall) :=
  (visitAllCalls checks opts panic ⟨blocks, [], 0⟩ tree.visit).map fun p =>
    p.1 ++ [checkCall panic, .ret 0]

/-- The first visitor: a block for every visit of a bracket. -/
def blockCount (visits : List BfVisitOp) : Nat :=
  (visits.filter fun
    | .leaf _ => false
    | _ => true).length

/-- The calls on the handle of `panic`. -/
def panicCalls : List BfCall := [.ret (BitVec.ofInt 64 (-1))]

/-! ## The blocks of the calls -/

namespace BfCall

/-- The stencil that a call copies, with its jumps. -/
def instr : BfCall → Instr
  | emit stencil => ⟨stencil, [.next]⟩
  | branch stencil jumps => ⟨stencil, jumps.map JumpScope.target⟩
  | endBranch stencil jumps _ => ⟨stencil, jumps.map JumpScope.target⟩
  | ret n => ⟨.ret n, []⟩

end BfCall

/-- The code of the current block. -/
def headCode : List BfCall → List Instr
  | [] => []
  | .endBranch stencil jumps next :: _ => [(BfCall.endBranch stencil jumps next).instr]
  | .ret n :: _ => [(BfCall.ret n).instr]
  | call :: rest => call.instr :: headCode rest

/-- The blocks that the calls go on to. -/
def laterBlocks : List BfCall → List (BlockId × List Instr)
  | [] => []
  | .endBranch _ _ next :: rest => (next, headCode rest) :: laterBlocks rest
  | .ret _ :: _ => []
  | _ :: rest => laterBlocks rest

/-- The program of the calls on the entry's handle. -/
def graphOf (panic : BlockId) (calls : List BfCall) : Graph := fun block =>
  ((0, headCode calls) :: laterBlocks calls ++ [(panic, headCode panicCalls)]).lookup block

/-- The ids that `create_block` returns for the brackets. -/
def blockIds (count : Nat) : List BlockId := (List.range count).map fun i => BitVec.ofNat 16 (i + 1)

/-- The id that it returns for `panic`, behind them. -/
def panicId (count : Nat) : BlockId := BitVec.ofNat 16 (count + 1)

/-- The program of a text. -/
def compileText (checks : Bool) (opts : CompileOptions) (code : List U8) : Option Graph :=
  (BF.parse checks code).bind fun tree =>
    let count := blockCount tree.visit
    (bodyCalls checks opts (panicId count) (blockIds count) tree).map (graphOf (panicId count))

end Patchouly.Bf
