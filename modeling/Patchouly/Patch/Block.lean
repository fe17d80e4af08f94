import Patchouly.Core.Stencils

/-!
# Copying stencils into a block (`src/patch.rs`, emission)

`PatchBlock` collects the code of one basic block. `emitOne` first settles the previous stencil
(`settleNext`: its jumps to the following stencil are resolved, and a jump instruction at the very
end of the code is pruned), then copies the selected stencil and patches what is known
(`copyAndPatch`).

A call that takes `&mut self` returns its `Result` together with the new state, on an error as well.
`none` is a panic.
-/

set_option autoImplicit false

namespace Patchouly.Patch

open Patchouly.Lib Patchouly.Core

/-- `PatchError`, without the failure of `mmap`. -/
inductive PatchError where
  | invalidRegister
  | stencilNotFound
  | notEnded
  | alreadyEnded
  | invalidEnd
  | unresolvedBlockTarget
  | blockOutOfScope
  | invalidParams
  | variableOutOfScope
  | outOfVariables
  deriving DecidableEq, Repr

structure PatchBlock (MAX_REGS : Nat) where
  library : StencilLibrary MAX_REGS
  code : List U8
  relocations : List DelayedRelocation
  constants : List Usize
  nextRelocations : List DelayedRelocation
  ended : Bool

/-- The check of `emit_one`: some operand is `Register(i)` with `i + 1 >= MAX_REGS`. -/
def anyInvalidRegister (checks : Bool) (maxRegs : Nat) : List Location → Option Bool
  | [] => some false
  | v :: vs =>
      (v.intoBits checks).bind fun bits =>
        if maxRegs ≤ bits.toNat then some true else anyInvalidRegister checks maxRegs vs

/-- The slot numbers of the stack operands, in order. -/
def stackVars (vars : List Location) : List Usize :=
  vars.filterMap fun
    | .stack i => some (i.setWidth 64)
    | .register _ => none

namespace PatchBlock

variable {MAX_REGS : Nat}

def new (library : StencilLibrary MAX_REGS) : PatchBlock MAX_REGS :=
  ⟨library, [], [], [], [], false⟩

/-- Whether the last pending jump may be cut off: the code ends with the empty stencil, and the jump
lies behind the last delayed entry. -/
def prunable (self : PatchBlock MAX_REGS) (last : DelayedRelocation) : Bool :=
  self.library.empty.isSuffixOf self.code &&
    decide (((self.relocations.getLast?).map (·.location)).getD 0 < last.location)

/-- The part of `emit_one` that pops the last pending jump, resolves it and prunes it. -/
def popNext (checks : Bool) (self : PatchBlock MAX_REGS) : Option (PatchBlock MAX_REGS) :=
  let nextTarget := self.code.length
  match self.nextRelocations.getLast? with
  | none => some self
  | some last => do
      -- the jump is resolved before it is known whether it is cut off
      let value ← last.resolve checks 0 (BitVec.ofNat 64 nextTarget)
      let code ← last.apply self.code 0 value
      let self := { self with code := code, nextRelocations := self.nextRelocations.dropLast }
      if self.prunable last then
        -- `truncate`: the jump falls through to the following stencil
        return { self with code := code.take (code.length - self.library.empty.length) }
      else
        return self

/-- The part of `emit_one` that resolves the remaining pending jumps. -/
def drainNext (checks : Bool) (nextTarget : Usize) :
    List DelayedRelocation → List U8 → Option (List U8)
  | [], code => some code
  | relocation :: rest, code => do
      let value ← relocation.resolve checks 0 nextTarget
      let code ← relocation.apply code 0 value
      drainNext checks nextTarget rest code

/-- `emit_one`, before the copy: the previous stencil is finished. -/
def settleNext (checks : Bool) (self : PatchBlock MAX_REGS) : Option (PatchBlock MAX_REGS) := do
  -- the length after the cut is where the other pending jumps go
  let self ← self.popNext checks
  let code ← drainNext checks (BitVec.ofNat 64 self.code.length) self.nextRelocations self.code
  return { self with code := code, nextRelocations := [] }

/-- The end of the loop body of `copy_and_patch`: file an entry that was not patched. -/
def fileDelayed (self : PatchBlock MAX_REGS) : Option DelayedRelocation → PatchBlock MAX_REGS
  | none => self
  | some delayed =>
      match delayed.target with
      | .next => { self with nextRelocations := self.nextRelocations ++ [delayed] }
      | _ => { self with relocations := self.relocations ++ [delayed] }

section Copy

variable (checks wide : Bool) (offset : Nat) (stackVars holes : List Usize)
  (jumps : List JumpTarget)

/-- One round of the loop of `copy_and_patch`. The index of a wide constant is cut to `u16`. -/
def patchEntry (self : PatchBlock MAX_REGS) (relocation : Relocation) :
    Option (PatchBlock MAX_REGS) :=
  match wide, relocation.patchInfo with
  -- a wide hole is not written inline: its value goes into the pool
  | true, some (.hole i) => do
      let constantIndex := self.constants.length
      let value ← holes[i.toNat]?
      return { self with
        constants := self.constants ++ [value]
        relocations := self.relocations ++
          [.constant offset relocation (BitVec.ofNat 16 constantIndex)] }
  | _, _ =>
      (DelayedRelocation.tryApply checks self.code offset relocation stackVars holes jumps
        self.library.rtSymbols).map fun (code, delayed) =>
          { self with code := code }.fileDelayed delayed

/-- The loop of `copy_and_patch`; the end marker returns. -/
def patchEntries : List Relocation → PatchBlock MAX_REGS → Option (PatchBlock MAX_REGS)
  | [], self => some self
  | relocation :: relocs, self =>
      if relocation.isInvalid then some self
      else (patchEntry checks wide offset stackVars holes jumps self relocation).bind
        (patchEntries relocs)

end Copy

section Emit

variable {IN OUT HOLES JUMPS : Nat}

def copyAndPatch (checks : Bool) (self : PatchBlock MAX_REGS)
    (store : StencilFamily IN OUT MAX_REGS HOLES JUMPS) (s : Stencil)
    (inputs : Vector Location IN) (outputs : Vector Location OUT) (holes : Vector Usize HOLES)
    (jumps : Vector JumpTarget JUMPS) (wide : Bool) (offset : Nat) :
    Option (PatchBlock MAX_REGS) := do
  let code ← s.code self.library.code
  let self := { self with code := self.code ++ code }
  let relocs ← s.relocations store
  patchEntries checks wide offset (stackVars (inputs.toList ++ outputs.toList)) holes.toList
    jumps.toList relocs self

def emitOne (checks : Bool) (self : PatchBlock MAX_REGS)
    (stencils : StencilFamily IN OUT MAX_REGS HOLES JUMPS) (inputs : Vector Location IN)
    (outputs : Vector Location OUT) (holes : Vector Usize HOLES) (jumps : Vector JumpTarget JUMPS) :
    Option (Except PatchError Unit × PatchBlock MAX_REGS) := do
  let bad ← anyInvalidRegister checks MAX_REGS (inputs.toList ++ outputs.toList)
  if bad then
    -- both errors return before anything of the block is changed
    return (.error .invalidRegister, self)
  else
    let selected ← stencils.select inputs outputs holes
    match selected with
    | none => return (.error .stencilNotFound, self)
    | some ⟨wide, stencil⟩ =>
        let self ← self.settleNext checks
        let self ← self.copyAndPatch checks stencils stencil inputs outputs holes jumps wide
          self.code.length
        return (.ok (), self)

def emit (checks : Bool) (self : PatchBlock MAX_REGS)
    (stencil : StencilFamily IN OUT MAX_REGS HOLES 1) (inputs : Vector Location IN)
    (outputs : Vector Location OUT) (holes : Vector Usize HOLES) :
    Option (Except PatchError Unit × PatchBlock MAX_REGS) :=
  -- the only entry point that looks at the mark
  if self.ended then some (.error .alreadyEnded, self)
  else self.emitOne checks stencil inputs outputs holes (.singleton .next)

def ret (checks : Bool) (self : PatchBlock MAX_REGS) (stencil : StencilFamily IN 0 MAX_REGS HOLES 0)
    (inputs : Vector Location IN) (holes : Vector Usize HOLES) :
    Option (Except PatchError Unit × PatchBlock MAX_REGS) :=
  -- the mark is set before any check, and no check looks at it
  { self with ended := true }.emitOne checks stencil inputs nil holes nil

def branch (checks : Bool) (self : PatchBlock MAX_REGS)
    (stencil : StencilFamily IN OUT MAX_REGS HOLES JUMPS) (inputs : Vector Location IN)
    (outputs : Vector Location OUT) (holes : Vector Usize HOLES) (jumps : Vector JumpTarget JUMPS) :
    Option (Except PatchError Unit × PatchBlock MAX_REGS) :=
  self.emitOne checks stencil inputs outputs holes jumps

def endBranch (checks : Bool) (self : PatchBlock MAX_REGS)
    (stencil : StencilFamily IN OUT MAX_REGS HOLES JUMPS) (inputs : Vector Location IN)
    (outputs : Vector Location OUT) (holes : Vector Usize HOLES) (jumps : Vector JumpTarget JUMPS) :
    Option (Except PatchError Unit × PatchBlock MAX_REGS) :=
  { self with ended := true }.branch checks stencil inputs outputs holes jumps

end Emit

end PatchBlock

end Patchouly.Patch
