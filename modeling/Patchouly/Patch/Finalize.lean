import Patchouly.Patch.Block

/-!
# Finalizing a block (`src/patch.rs`, layout and linking)

`finalizeInto` copies a block's code into the map, places one copy of the long-jump stencil per
runtime symbol and the constant pool behind it, and resolves the delayed relocations. `finalLen` is
the length it announces beforehand, and `ProgramBlocks.fromLens` turns the lengths of all blocks
into their offsets.

`code[a..b]` of the source is the map from `blockBaseOffset + a` on; the slice
`map[block_base_offset..]` is taken apart into its writes. The map is logged, so that the runs below
can be described by their writes.
-/

set_option autoImplicit false

namespace Patchouly.Patch

open Patchouly.Lib Patchouly.Core

/-- `size_of::<usize>()`. -/
def usizeSize : Nat := 8

/-- `to_ne_bytes` of a little-endian target. -/
def neBytes (v : Usize) : List U8 := leBytes v usizeSize

def nextMultipleOf (n m : Nat) : Nat := if n % m = 0 then n else n + (m - n % m)

structure ProgramBlocks where
  offsets : List Nat
  deriving DecidableEq

namespace ProgramBlocks

/-- The loop of `from_lens`: each length is replaced by the running sum before it. -/
def scan : Nat → List Nat → List Nat × Nat
  | last, [] => ([], last)
  | last, i :: rest => ((last :: (scan (last + i) rest).1), (scan (last + i) rest).2)

def fromLens : List Nat → ProgramBlocks × Nat
  | [] => (⟨[]⟩, 0)
  | first :: rest => (⟨0 :: (scan first rest).1⟩, (scan first rest).2)

def resolveTarget (self : ProgramBlocks) (block : U16) : Option Nat := self.offsets[block.toNat]?

end ProgramBlocks

/-- The loop of `runtime_trampoline_symbols`. -/
def collectRuntime : List U16 → List DelayedRelocation → List U16
  | symbols, [] => symbols
  | symbols, relocation :: rest =>
      match relocation.target with
      | .runtime symbol =>
          collectRuntime (if symbol ∈ symbols then symbols else symbols ++ [symbol]) rest
      | _ => collectRuntime symbols rest

/-- The variables of `finalize_into` that the trampoline loop changes. -/
structure TrampolineState where
  map : LoggedBuffer
  addresses : List Usize
  relocations : List DelayedRelocation
  current : Nat

/-- The entries of the long jump that a trampoline copies: its `Hole(0)` fields. -/
def holeZeroEntries (relocs : List Relocation) : List Relocation :=
  (validEntries relocs).filter fun r => r.patchInfo = some (.hole 0)

/-- The loops that fill the constant pool, one slot per value. -/
def placeConstants : Nat → List Usize → LoggedBuffer → Option LoggedBuffer
  | _, [], map => some map
  | start, constant :: rest, map =>
      (ByteSlice.copyFromSlice map start (neBytes constant)).bind
        (placeConstants (start + usizeSize) rest)

namespace PatchBlock

variable {MAX_REGS : Nat}

def runtimeTrampolineSymbols (self : PatchBlock MAX_REGS) : List U16 :=
  collectRuntime [] self.relocations

/-- `select` with the hole value `usize::MAX`. -/
def longJumpStencil (self : PatchBlock MAX_REGS) : Option (Option Stencil) :=
  (self.library.longJump.select nil nil (.singleton (BitVec.allOnes 64))).map fun selected =>
    selected.map (·.stencil)

def finalLen (self : PatchBlock MAX_REGS) : Option Nat := do
  let runtimeTrampolines := self.runtimeTrampolineSymbols
  let longJump ← self.longJumpStencil
  let codeLen := self.code.length +
    runtimeTrampolines.length * (longJump.map (·.codeLen.toNat)).getD 0
  let constantCount := self.constants.length + runtimeTrampolines.length
  if constantCount = 0 then
    return codeLen
  else
    return nextMultipleOf codeLen usizeSize + constantCount * usizeSize

def measure (self : PatchBlock MAX_REGS) : Option (Option Nat) :=
  if ¬ self.ended then some none else self.finalLen.map some

section Finalize

variable (checks : Bool) (self : PatchBlock MAX_REGS) (base : Usize) (blockBaseOffset : Nat)

/-- One round of the trampoline loop. -/
def placeTrampoline (blockBase : Usize) (longJump : Stencil) (i : Nat) (symbol : U16)
    (st : TrampolineState) : Option TrampolineState := do
  let offset := st.current
  let stencilCode ← longJump.code self.library.code
  let map ← ByteSlice.copyFromSlice st.map (blockBaseOffset + offset) stencilCode
  let address ← plainAdd checks blockBase (BitVec.ofNat 64 offset)
  let addresses ←
    -- `trampoline_addresses[symbol as usize]`, as long as `rt_symbols`
    if symbol.toNat < st.addresses.length then some (st.addresses.set symbol.toNat address) else none
  let relocs ← longJump.relocations self.library.longJump
  return {
    map := map
    addresses := addresses
    relocations := st.relocations ++ (holeZeroEntries relocs).map fun relocation =>
      .constant offset relocation (BitVec.ofNat 16 (self.constants.length + i))
    current := offset + stencilCode.length }

def placeTrampolines (blockBase : Usize) (longJump : Stencil) :
    Nat → List U16 → TrampolineState → Option TrampolineState
  | _, [], st => some st
  | i, symbol :: rest, st =>
      (self.placeTrampoline checks blockBaseOffset blockBase longJump i symbol st).bind
        (placeTrampolines blockBase longJump (i + 1) rest)

/-- The address a delayed relocation refers to. A pending jump is unreachable here. -/
def targetAddress (blockBase : Usize) (constantBase : Nat) (addresses : List Usize)
    (blocks : ProgramBlocks) : DelayedTarget → Option (Except PatchError Usize)
  | .block block =>
      match blocks.resolveTarget block with
      | none => some (.error .unresolvedBlockTarget)
      | some targetOffset => (plainAdd checks base (BitVec.ofNat 64 targetOffset)).map .ok
  | .constant index => do
      let pool ← plainAdd checks blockBase (BitVec.ofNat 64 constantBase)
      let slot ← plainAdd checks pool (BitVec.ofNat 64 (index.toNat * usizeSize))
      return .ok slot
  | .runtime symbol => (addresses[symbol.toNat]?).map .ok
  -- `unreachable!()`
  | .next => none

/-- The relocation loop. -/
def applyRelocations (blockBase : Usize) (constantBase : Nat) (addresses : List Usize)
    (blocks : ProgramBlocks) :
    List DelayedRelocation → LoggedBuffer → Option (Except PatchError Unit × LoggedBuffer)
  | [], map => some (.ok (), map)
  | relocation :: rest, map => do
      match ← targetAddress checks base blockBase constantBase addresses blocks
          relocation.target with
      | .error e => return (.error e, map)
      | .ok target =>
          let value ← relocation.resolve checks blockBase target
          let map ← relocation.apply map blockBaseOffset value
          applyRelocations blockBase constantBase addresses blocks rest map

/-- Start of the constant pool inside the block. -/
def constantBase (current : Nat) : Nat :=
  if self.constants.isEmpty && self.runtimeTrampolineSymbols.isEmpty then current
  else nextMultipleOf current usizeSize

/-- The end of `finalize_into`: the constant pool and the relocation loop. -/
def finalizePool (blockBase : Usize) (blocks : ProgramBlocks) (st : TrampolineState) :
    Option (Except PatchError Unit × LoggedBuffer) := do
  let start := self.constantBase st.current
  let map ← placeConstants (blockBaseOffset + start) self.constants st.map
  -- the slots of the symbols follow those of the constants
  let symbols ← self.runtimeTrampolineSymbols.mapM fun symbol =>
    self.library.rtSymbols[symbol.toNat]?
  let map ← placeConstants (blockBaseOffset + start + usizeSize * self.constants.length) symbols map
  applyRelocations checks base blockBaseOffset blockBase start st.addresses blocks
    (self.relocations ++ st.relocations) map

def finalizeInto (map : LoggedBuffer) (blocks : ProgramBlocks) :
    Option (Except PatchError Unit × LoggedBuffer) := do
  if ¬ self.ended then
    return (.error .notEnded, map)
  else if ¬ self.nextRelocations.isEmpty then
    return (.error .invalidEnd, map)
  else
    let blockBase ← plainAdd checks base (BitVec.ofNat 64 blockBaseOffset)
    -- from here on the map has changed, also when an error is returned
    let map ← ByteSlice.copyFromSlice map blockBaseOffset self.code
    let st : TrampolineState :=
      ⟨map, List.replicate self.library.rtSymbols.length 0, [], self.code.length⟩
    if self.runtimeTrampolineSymbols.isEmpty then
      self.finalizePool checks base blockBaseOffset blockBase blocks st
    else
      match ← self.longJumpStencil with
      | none => return (.error .stencilNotFound, map)
      | some longJump =>
          let st ← self.placeTrampolines checks blockBaseOffset blockBase longJump 0
            self.runtimeTrampolineSymbols st
          self.finalizePool checks base blockBaseOffset blockBase blocks st

end Finalize

end PatchBlock

end Patchouly.Patch
