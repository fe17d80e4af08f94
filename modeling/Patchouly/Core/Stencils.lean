import Patchouly.Core.Relocation

/-!
# Stencil families and selection (`patchouly-core`, `stencils.rs`, `lib.rs`)

A `StencilFamily` holds one stencil per vector of operand locations, indexed in mixed radix by
`ioToIndex`, and a second copy of the table for the wide variants. `select` walks the relocations of
the narrow stencil and falls back to the wide one at the first hole value that does not fit.

The dimensions of a family are type parameters, as in the source. A stencil does not depend on them.
-/

set_option autoImplicit false

namespace Patchouly.Core

open Patchouly.Lib

/-- The array `[]`. -/
abbrev nil {α : Type} : Vector α 0 := #v[]

inductive Location where
  | stack (slot : U16)
  | register (i : U16)
  deriving DecidableEq, Repr

namespace Location

def fromBits (bits : U16) : Location := if bits = 0 then .stack 0 else .register (bits - 1)

def intoBits (checks : Bool) : Location → Option U16
  | .stack _ => some 0
  | .register i => plainAdd checks i 1

/-- The digit of the location in a stencil index: `*i as usize + 1` for a register. -/
def digit : Location → Nat
  | .stack _ => 0
  | .register i => i.toNat + 1

@[simp] theorem digit_fromBits (bits : U16) : (fromBits bits).digit = bits.toNat := by
  rw [fromBits]
  split
  · next h => simp [h, digit]
  · next h =>
    have hne : bits.toNat ≠ 0 := fun h0 => h (BitVec.eq_of_toNat_eq h0)
    have hle : (1 : U16) ≤ bits := by
      rw [BitVec.le_def]
      exact Nat.pos_of_ne_zero hne
    have hone : (1 : U16).toNat = 1 := by decide
    rw [digit, BitVec.toNat_sub_of_le hle, hone]
    omega

theorem fromBits_injective : Function.Injective fromBits := by
  intro a b h
  apply BitVec.eq_of_toNat_eq
  rw [← digit_fromBits a, h, digit_fromBits]

end Location

/-- `io_to_index`'s loop over inputs and outputs. -/
def ioIndexAux (maxRegs : Nat) : Nat → List Location → Nat
  | i, [] => i
  | i, var :: vars => ioIndexAux maxRegs (maxRegs * i + var.digit) vars

def stencilsLen (inputs outputs maxRegs : Nat) : Nat := maxRegs ^ (inputs + outputs)

def ioToIndex (inputs outputs : List Location) (maxRegs : Nat) (wide : Bool) : Nat :=
  ioIndexAux maxRegs 0 (inputs ++ outputs) +
    if wide then stencilsLen inputs.length outputs.length maxRegs else 0

structure Stencil where
  codeIndex : U32
  codeLen : U16
  /-- First entry in the family's `relocationData`; the list ends at an invalid entry. -/
  relocationIndex : U16
  deriving DecidableEq

instance : Inhabited Stencil := ⟨⟨0, 0, 0⟩⟩

structure StencilFamily (IN OUT MAX_REGS HOLES JUMPS : Nat) where
  relocationData : List Relocation
  stencils : List Stencil

structure SelectedStencil where
  wide : Bool
  stencil : Stencil
  deriving DecidableEq

def SelectedStencil.new (wide : Bool) (stencil : Stencil) : Option SelectedStencil :=
  if stencil.codeLen = 0 then none else some ⟨wide, stencil⟩

section Family

variable {IN OUT MAX_REGS HOLES JUMPS : Nat}

namespace Stencil

/-- `&store[code_index..code_index + code_len]`. -/
def code (self : Stencil) (store : List U8) : Option (List U8) :=
  if self.codeIndex.toNat + self.codeLen.toNat ≤ store.length then
    some ((store.drop self.codeIndex.toNat).take self.codeLen.toNat)
  else none

/-- `&store.relocation_data[relocation_index..]`, up to the end of the pool. -/
def relocations (self : Stencil) (store : StencilFamily IN OUT MAX_REGS HOLES JUMPS) :
    Option (List Relocation) :=
  if self.relocationIndex.toNat ≤ store.relocationData.length then
    some (store.relocationData.drop self.relocationIndex.toNat)
  else none

theorem code_length {self : Stencil} {store bytes : List U8} (h : self.code store = some bytes) :
    bytes.length = self.codeLen.toNat := by
  rw [code] at h
  split at h
  · obtain rfl := Option.some.inj h
    simp only [List.length_take, List.length_drop]
    omega
  · cases h

end Stencil

/-- The entries before the end marker. -/
def validEntries (relocs : List Relocation) : List Relocation :=
  relocs.takeWhile fun r => ! r.isInvalid

/-- The loop of `select`: whether the walk over the narrow stencil's entries reaches the end marker
without meeting a hole value that does not fit. -/
def narrowFits (holes : List Usize) : List Relocation → Option Bool
  | [] => some false
  | reloc :: relocs =>
      if reloc.isInvalid then some true
      else
        match reloc.patchInfo with
        | some (.hole i) =>
            (holes[i.toNat]?).bind fun value =>
              if reloc.supportsValue value then narrowFits holes relocs else some false
        | _ => narrowFits holes relocs

namespace StencilFamily

def select (self : StencilFamily IN OUT MAX_REGS HOLES JUMPS) (inputs : Vector Location IN)
    (outputs : Vector Location OUT) (holes : Vector Usize HOLES) :
    Option (Option SelectedStencil) := do
  let index := ioToIndex inputs.toList outputs.toList MAX_REGS false
  let stencil ← self.stencils[index]?
  let relocs ← stencil.relocations self
  let narrow ← narrowFits holes.toList relocs
  if narrow then
    return SelectedStencil.new false stencil
  else
    let stencil ← self.stencils[index + stencilsLen IN OUT MAX_REGS]?
    return SelectedStencil.new true stencil

/-- A selected stencil is one of the family's and has code. -/
theorem select_mem {self : StencilFamily IN OUT MAX_REGS HOLES JUMPS}
    {inputs : Vector Location IN} {outputs : Vector Location OUT} {holes : Vector Usize HOLES}
    {sel : SelectedStencil} (h : self.select inputs outputs holes = some (some sel)) :
    sel.stencil ∈ self.stencils ∧ sel.stencil.codeLen ≠ 0 := by
  have hnew : ∀ {wide : Bool} {s : Stencil}, SelectedStencil.new wide s = some sel →
      sel.stencil = s ∧ s.codeLen ≠ 0 := by
    intro wide s hs
    rw [SelectedStencil.new] at hs
    split at hs
    · cases hs
    · next hne =>
      obtain rfl := Option.some.inj hs
      exact ⟨rfl, hne⟩
  simp only [select, Option.bind_eq_bind, Option.pure_def] at h
  obtain ⟨s, hs, h⟩ := Option.bind_eq_some_iff.1 h
  obtain ⟨relocs, -, h⟩ := Option.bind_eq_some_iff.1 h
  obtain ⟨narrow, -, h⟩ := Option.bind_eq_some_iff.1 h
  -- the narrow slot or the wide one; both are tested for code in `SelectedStencil.new`
  split at h
  · obtain ⟨rfl, hne⟩ := hnew (Option.some.inj h)
    exact ⟨List.mem_of_getElem? hs, hne⟩
  · obtain ⟨s', hs', h⟩ := Option.bind_eq_some_iff.1 h
    obtain ⟨rfl, hne⟩ := hnew (Option.some.inj h)
    exact ⟨List.mem_of_getElem? hs', hne⟩

end StencilFamily

end Family

/-- `rt_symbols` are the addresses of the runtime functions. -/
structure StencilLibrary (MAX_REGS : Nat) where
  code : List U8
  empty : List U8
  longJump : StencilFamily 0 0 MAX_REGS 1 0
  rtSymbols : List Usize

end Patchouly.Core
