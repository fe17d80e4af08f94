import Patchouly.Managed.Builder
import Patchouly.Patch.Calls

/-!
# The builder with its block handles

A `PatchBlockBuilder` borrows its builder mutably. While it lives, only it can be used; through
`builder()` it can open further handles, and it is usable again when these are gone. So the live
handles form a stack, and `Machine` is a builder with the block ids of that stack.

`Machine.exec` is one call of the public interface. What it does to the block code is one
`PatchBlock` call or nothing (`exec_blocks`); `blockCall` is that call.
-/

set_option autoImplicit false

namespace Patchouly.Managed

open Patchouly.Lib Patchouly.Core Patchouly.Patch

/-- One call of the public interface. `drop` ends the life of the current handle. -/
inductive Op (MAX_REGS : Nat) where
  | createBlock
  | switchToEntry
  | switchToBlock (block : BlockId)
  | newParam
  | newVariable
  | emit {IN OUT HOLES : Nat} (stencil : StencilFamily IN OUT MAX_REGS HOLES 1)
      (inputs : Vector Value IN) (outputs : Vector Value OUT) (holes : Vector Usize HOLES)
  | branch {IN OUT HOLES JUMPS : Nat} (stencil : StencilFamily IN OUT MAX_REGS HOLES JUMPS)
      (inputs : Vector Value IN) (outputs : Vector Value OUT) (holes : Vector Usize HOLES)
      (jumps : Vector JumpScope JUMPS)
  | endBranch {IN OUT HOLES JUMPS : Nat} (stencil : StencilFamily IN OUT MAX_REGS HOLES JUMPS)
      (inputs : Vector Value IN) (outputs : Vector Value OUT) (holes : Vector Usize HOLES)
      (jumps : Vector JumpScope JUMPS) (next : BlockId)
  | ret {IN HOLES : Nat} (stencil : StencilFamily IN 0 MAX_REGS HOLES 0)
      (inputs : Vector Value IN) (holes : Vector Usize HOLES)
  | drop

/-- `handles` are the block ids of the live handles, the usable one first. -/
structure Machine (σ : Type → Type) (MAX_REGS : Nat) where
  builder : PatchFunctionBuilder σ MAX_REGS
  handles : List BlockId

namespace Machine

variable {σ : Type → Type} [Slab σ] {MAX_REGS : Nat}

/-- The result of a call: an error, or a value for `newVariable` and `newParam`. -/
abbrev Outcome := Except PatchError (Option Value)

/-- A switch that succeeds makes a new handle. -/
def opened (m : Machine σ MAX_REGS) (block : BlockId) :
    Except PatchError Unit × PatchFunctionBuilder σ MAX_REGS → Outcome × Machine σ MAX_REGS
  | (.ok (), builder) => (.ok none, ⟨builder, block :: m.handles⟩)
  | (.error e, builder) => (.error e, ⟨builder, m.handles⟩)

/-- The handle stack after an `endBranch` that moved the handle to `next`. -/
def moved (m : Machine σ MAX_REGS) (next : BlockId) :
    Except PatchError Unit × PatchFunctionBuilder σ MAX_REGS → Outcome × Machine σ MAX_REGS
  | (.ok (), builder) => (.ok none, ⟨builder, next :: m.handles.tail⟩)
  | (.error e, builder) => (.error e, ⟨builder, m.handles⟩)

/-- A call that leaves the handles as `handles`. -/
def stayed {α : Type} (handles : List BlockId) (value : α → Option Value) :
    Except PatchError α × PatchFunctionBuilder σ MAX_REGS → Outcome × Machine σ MAX_REGS
  | (res, builder) => (res.map value, ⟨builder, handles⟩)

/-- One call; `none` is a panic, or a call on a handle that does not exist. -/
def exec (checks : Bool) (m : Machine σ MAX_REGS) :
    Op MAX_REGS → Option (Outcome × Machine σ MAX_REGS)
  | .createBlock =>
      (m.builder.createBlock checks).map fun (_, builder) => (.ok none, ⟨builder, m.handles⟩)
  | .switchToEntry => m.builder.switchToEntry.map (m.opened 0)
  | .switchToBlock block => (m.builder.switchToBlock block).map (m.opened block)
  | .newParam =>
      m.handles.head?.bind fun id =>
        (m.builder.newParam checks id).map (stayed m.handles some)
  | .newVariable =>
      m.handles.head?.bind fun id =>
        (m.builder.newVariable checks id).map (stayed m.handles some)
  | .emit stencil inputs outputs holes =>
      m.handles.head?.bind fun id =>
        (m.builder.emit checks id stencil inputs outputs holes).map
          (stayed m.handles fun _ => none)
  | .branch stencil inputs outputs holes jumps =>
      m.handles.head?.bind fun id =>
        (m.builder.branch checks id stencil inputs outputs holes jumps).map
          (stayed m.handles fun _ => none)
  | .endBranch stencil inputs outputs holes jumps next =>
      m.handles.head?.bind fun id =>
        (m.builder.endBranch checks id stencil inputs outputs holes jumps next).map (m.moved next)
  | .ret stencil inputs holes =>
      m.handles.head?.bind fun id =>
        (m.builder.ret checks id stencil inputs holes).map
          (stayed m.handles.tail fun _ => none)
  | .drop => m.handles.head?.map fun _ => (.ok none, ⟨m.builder, m.handles.tail⟩)

end Machine

end Patchouly.Managed
