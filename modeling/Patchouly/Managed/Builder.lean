import Patchouly.Managed.Allocator
import Patchouly.Patch.Finalize

/-!
# Building a function of several blocks (`src/managed.rs`)

`PatchFunctionBuilder` keeps the blocks, the variables each block owns and the stack of open scopes.
`switchToBlock` pops the scopes above the parent of the new block and frees their variables;
`branchPrep` checks the operands of a jump and assigns the parents of its target blocks. The methods
of `PatchBlockBuilder` are functions of the builder and of the handle's block id.

An index out of range and a location lookup of a freed slot are panics (`none`).
-/

set_option autoImplicit false

namespace Patchouly.Managed

open Patchouly.Lib Patchouly.Core Patchouly.Patch

structure BlockScope (MAX_REGS : Nat) where
  block : PatchBlock MAX_REGS
  parent : Option BlockId
  /-- `variables` in the source, a keyword here. -/
  vars : List Value

inductive JumpScope where
  | next
  | child (block : BlockId)
  | same (block : BlockId)
  | parent (dest parent : BlockId)
  deriving DecidableEq, Repr

/-- The jump target the closure of `branch_prep` returns. -/
def JumpScope.target : JumpScope → JumpTarget
  | .next => .next
  | .child block => .target block
  | .same block => .target block
  | .parent dest _ => .target dest

structure PatchFunctionBuilder (σ : Type → Type) (MAX_REGS : Nat) where
  library : StencilLibrary MAX_REGS
  allocator : Allocator σ
  blocks : List (BlockScope MAX_REGS)
  currentScopes : List BlockId

/-- The variables of a popped scope are dropped one by one. -/
def dropAll {σ : Type → Type} [Slab σ] : List Value → Allocator σ → Option (Allocator σ)
  | [], allocator => some allocator
  | v :: vs, allocator => (allocator.drop v).bind (dropAll vs)

/-- `locations`: the check of the scopes, then the lookups. -/
def locations {σ : Type → Type} [Slab σ] {LEN : Nat} (alloc : Allocator σ) (scopes : List BlockId)
    (values : Vector Value LEN) : Option (Except PatchError (Vector Location LEN)) :=
  if values.toList.all fun v => decide (v.scope ∈ scopes) then
    (values.mapM alloc.location).map .ok
  else some (.error .variableOutOfScope)

namespace PatchFunctionBuilder

variable {σ : Type → Type} [Slab σ] {MAX_REGS : Nat}

/-- `MAX_REGS - 1` registers; without a location there is no builder. -/
def new (library : StencilLibrary MAX_REGS) : Option (PatchFunctionBuilder σ MAX_REGS) :=
  if MAX_REGS = 0 then none
  else (Allocator.new (MAX_REGS - 1)).map fun allocator =>
    ⟨library, allocator, [⟨.new library, none, []⟩], []⟩

/-- The returned id is the number of blocks as `u16`, minus one. -/
def createBlock (checks : Bool) (self : PatchFunctionBuilder σ MAX_REGS) :
    Option (BlockId × PatchFunctionBuilder σ MAX_REGS) :=
  let self := { self with blocks := self.blocks ++ [⟨.new self.library, none, []⟩] }
  (plainSub checks (BitVec.ofNat 16 self.blocks.length) 1).map fun id => (id, self)

/-- The loop of `switch_to_block`: the popped scopes, topmost first, lose their variables. -/
def popScopes : List BlockId → PatchFunctionBuilder σ MAX_REGS →
    Option (PatchFunctionBuilder σ MAX_REGS)
  | [], self => some self
  | i :: rest, self => do
      let scope ← self.blocks[i.toNat]?
      let allocator ← dropAll scope.vars self.allocator
      popScopes rest { self with
        allocator := allocator
        blocks := self.blocks.set i.toNat { scope with vars := [] } }

def switchToBlock (self : PatchFunctionBuilder σ MAX_REGS) (block : BlockId) :
    Option (Except PatchError Unit × PatchFunctionBuilder σ MAX_REGS) :=
  if self.blocks.length ≤ block.toNat then some (.error .unresolvedBlockTarget, self)
  else if block = 0 then
    some (.ok (), { self with currentScopes := self.currentScopes ++ [block] })
  else
    match (self.blocks[block.toNat]?).bind (·.parent) with
    | none => some (.error .blockOutOfScope, self)
    | some parent =>
        match self.currentScopes.idxOf? parent with
        | none => some (.error .blockOutOfScope, self)
        | some index =>
            (popScopes (self.currentScopes.drop (index + 1)).reverse self).map fun popped =>
              (.ok (), { popped with
                currentScopes := self.currentScopes.take (index + 1) ++ [block] })

def switchToEntry (self : PatchFunctionBuilder σ MAX_REGS) :
    Option (Except PatchError Unit × PatchFunctionBuilder σ MAX_REGS) :=
  self.switchToBlock 0

/-! ## The methods of a block handle -/

def newVariable (checks : Bool) (self : PatchFunctionBuilder σ MAX_REGS) (id : BlockId) :
    Option (Except PatchError Value × PatchFunctionBuilder σ MAX_REGS) := do
  let (value, allocator) ← self.allocator.allocate checks id
  let self := { self with allocator := allocator }
  match value with
  | none => return (.error .outOfVariables, self)
  | some value =>
      let scope ← self.blocks[id.toNat]?
      return (.ok value, { self with
        blocks := self.blocks.set id.toNat { scope with vars := scope.vars ++ [value] } })

def newParam (checks : Bool) (self : PatchFunctionBuilder σ MAX_REGS) (id : BlockId) :
    Option (Except PatchError Value × PatchFunctionBuilder σ MAX_REGS) :=
  (self.blocks[id.toNat]?).bind fun scope =>
    if scope.parent.isSome then some (.error .invalidParams, self)
    else self.newVariable checks id

/-- A call on the code of block `id`. -/
def onBlock (self : PatchFunctionBuilder σ MAX_REGS) (id : BlockId)
    (f : PatchBlock MAX_REGS → Option (Except PatchError Unit × PatchBlock MAX_REGS)) :
    Option (Except PatchError Unit × PatchFunctionBuilder σ MAX_REGS) := do
  let scope ← self.blocks[id.toNat]?
  let (res, block) ← f scope.block
  return (res, { self with blocks := self.blocks.set id.toNat { scope with block := block } })

/-- `self.builder.blocks[block].parent = Some(parent)`. -/
def setParent (self : PatchFunctionBuilder σ MAX_REGS) (block parent : BlockId) :
    Option (PatchFunctionBuilder σ MAX_REGS) :=
  (self.blocks[block.toNat]?).map fun scope =>
    { self with blocks := self.blocks.set block.toNat { scope with parent := some parent } }

/-- The closure of `branch_prep` on one jump: the parent of the target is assigned, also when the
given parent is out of scope, which the flag reports. -/
def prepJump (id : BlockId) (self : PatchFunctionBuilder σ MAX_REGS) :
    JumpScope → Option (Bool × PatchFunctionBuilder σ MAX_REGS)
  | .next => some (false, self)
  | .child block => (self.setParent block id).map fun self => (false, self)
  | .same block =>
      (self.blocks[id.toNat]?).bind fun scope =>
        (self.setParent block (scope.parent.getD 0)).map fun self => (false, self)
  | .parent dest parent =>
      (self.setParent dest parent).map fun self' =>
        (decide (parent ∉ self.currentScopes), self')

def prepJumps (id : BlockId) :
    List JumpScope → PatchFunctionBuilder σ MAX_REGS →
      Option (Bool × PatchFunctionBuilder σ MAX_REGS)
  | [], self => some (false, self)
  | jump :: rest, self => do
      let (bad, self) ← prepJump id self jump
      let (badRest, self) ← prepJumps id rest self
      return (bad || badRest, self)

section Emit

variable {IN OUT HOLES JUMPS : Nat} (checks : Bool)

def branchPrep (self : PatchFunctionBuilder σ MAX_REGS) (id : BlockId) (inputs : Vector Value IN)
    (outputs : Vector Value OUT) (jumps : Vector JumpScope JUMPS) :
    Option (Except PatchError (Vector Location IN × Vector Location OUT × Vector JumpTarget JUMPS) ×
      PatchFunctionBuilder σ MAX_REGS) := do
  match ← locations self.allocator self.currentScopes inputs with
  | .error e => return (.error e, self)
  | .ok inputs =>
      match ← locations self.allocator self.currentScopes outputs with
      | .error e => return (.error e, self)
      | .ok outputs =>
          let (blockOutOfScope, self) ← prepJumps id jumps.toList self
          if blockOutOfScope then return (.error .blockOutOfScope, self)
          else return (.ok (inputs, outputs, jumps.map JumpScope.target), self)

def emit (self : PatchFunctionBuilder σ MAX_REGS) (id : BlockId)
    (stencil : StencilFamily IN OUT MAX_REGS HOLES 1) (inputs : Vector Value IN)
    (outputs : Vector Value OUT) (holes : Vector Usize HOLES) :
    Option (Except PatchError Unit × PatchFunctionBuilder σ MAX_REGS) := do
  match ← locations self.allocator self.currentScopes inputs with
  | .error e => return (.error e, self)
  | .ok inputs =>
      match ← locations self.allocator self.currentScopes outputs with
      | .error e => return (.error e, self)
      | .ok outputs => self.onBlock id fun b => b.emit checks stencil inputs outputs holes

/-- `branch` and the first half of `end_branch`: the preparation and a call on the block. -/
def branchWith (self : PatchFunctionBuilder σ MAX_REGS) (id : BlockId) (inputs : Vector Value IN)
    (outputs : Vector Value OUT) (jumps : Vector JumpScope JUMPS)
    (f : Vector Location IN → Vector Location OUT → Vector JumpTarget JUMPS →
      PatchBlock MAX_REGS → Option (Except PatchError Unit × PatchBlock MAX_REGS)) :
    Option (Except PatchError Unit × PatchFunctionBuilder σ MAX_REGS) := do
  match ← self.branchPrep id inputs outputs jumps with
  | (.error e, self) => return (.error e, self)
  | (.ok (inputs, outputs, jumps), self) => self.onBlock id (f inputs outputs jumps)

def branch (self : PatchFunctionBuilder σ MAX_REGS) (id : BlockId)
    (stencil : StencilFamily IN OUT MAX_REGS HOLES JUMPS) (inputs : Vector Value IN)
    (outputs : Vector Value OUT) (holes : Vector Usize HOLES) (jumps : Vector JumpScope JUMPS) :
    Option (Except PatchError Unit × PatchFunctionBuilder σ MAX_REGS) :=
  self.branchWith id inputs outputs jumps fun inputs outputs jumps b =>
    b.branch checks stencil inputs outputs holes jumps

/-- `end_branch` up to the switch. -/
def endBranchCode (self : PatchFunctionBuilder σ MAX_REGS) (id : BlockId)
    (stencil : StencilFamily IN OUT MAX_REGS HOLES JUMPS) (inputs : Vector Value IN)
    (outputs : Vector Value OUT) (holes : Vector Usize HOLES) (jumps : Vector JumpScope JUMPS) :
    Option (Except PatchError Unit × PatchFunctionBuilder σ MAX_REGS) :=
  self.branchWith id inputs outputs jumps fun inputs outputs jumps b =>
    b.endBranch checks stencil inputs outputs holes jumps

/-- On success the handle moves to the block `next`. -/
def endBranch (self : PatchFunctionBuilder σ MAX_REGS) (id : BlockId)
    (stencil : StencilFamily IN OUT MAX_REGS HOLES JUMPS) (inputs : Vector Value IN)
    (outputs : Vector Value OUT) (holes : Vector Usize HOLES) (jumps : Vector JumpScope JUMPS)
    (next : BlockId) : Option (Except PatchError Unit × PatchFunctionBuilder σ MAX_REGS) := do
  match ← self.endBranchCode checks id stencil inputs outputs holes jumps with
  | (.error e, self) => return (.error e, self)
  | (.ok (), self) => self.switchToBlock next

def ret (self : PatchFunctionBuilder σ MAX_REGS) (id : BlockId)
    (stencil : StencilFamily IN 0 MAX_REGS HOLES 0) (inputs : Vector Value IN)
    (holes : Vector Usize HOLES) :
    Option (Except PatchError Unit × PatchFunctionBuilder σ MAX_REGS) := do
  match ← locations self.allocator self.currentScopes inputs with
  | .error e => return (.error e, self)
  | .ok inputs => self.onBlock id fun b => b.ret checks stencil inputs holes

end Emit

/-! ## Finalizing -/

/-- `measure().ok_or(NotEnded)` of every block, up to the first that has not ended. -/
def measureBlocks : List (BlockScope MAX_REGS) → Option (Except PatchError (List Nat))
  | [] => some (.ok [])
  | scope :: rest => do
      match ← scope.block.measure with
      | none => return .error .notEnded
      | some len =>
          match ← measureBlocks rest with
          | .error e => return .error e
          | .ok lens => return .ok (len :: lens)

/-- The loop over the blocks, from block `i` on. -/
def finalizeBlocks (checks : Bool) (base : Usize) (offsets : ProgramBlocks) :
    Nat → List (BlockScope MAX_REGS) → LoggedBuffer → Option (Except PatchError Unit × LoggedBuffer)
  | _, [], map => some (.ok (), map)
  | i, scope :: rest, map => do
      let offset ← offsets.offsets[i]?
      match ← scope.block.finalizeInto checks base offset map offsets with
      | (.error e, map) => return (.error e, map)
      | (.ok (), map) => finalizeBlocks checks base offsets (i + 1) rest map

/-- `allocator` gives the memory and the address it will run at. -/
def finalizeInto (checks : Bool) (self : PatchFunctionBuilder σ MAX_REGS)
    (allocator : Nat → Except PatchError (LoggedBuffer × Usize)) :
    Option (Except PatchError (LoggedBuffer × U16)) := do
  match ← measureBlocks self.blocks with
  | .error e => return .error e
  | .ok lens =>
      let (offsets, total) := ProgramBlocks.fromLens lens
      match allocator total with
      | .error e => return .error e
      | .ok (map, base) =>
          match ← finalizeBlocks checks base offsets 0 self.blocks map with
          | (.error e, _) => return .error e
          | (.ok (), map) => return .ok (map, self.allocator.stackSize)

/-- `address` is where the vector lies, the base when none is given. -/
def finalizeIntoVec (checks : Bool) (self : PatchFunctionBuilder σ MAX_REGS) (address : Usize)
    (base : Option Usize) : Option (Except PatchError (List U8 × U16)) :=
  (self.finalizeInto checks fun len => .ok (⟨List.replicate len 0, []⟩, base.getD address)).map
    fun res => res.map fun (map, stackSlots) => (map.bytes, stackSlots)

end PatchFunctionBuilder

end Patchouly.Managed
