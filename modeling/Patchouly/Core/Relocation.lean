import Patchouly.Lib.Writes

/-!
# Relocation entries (`patchouly-core`, `relocation.rs`)

A `Relocation` is one 64-bit word with packed fields. `applyRaw` writes a value into the field it
describes; `DelayedRelocation` is an entry of one copied stencil whose value is not known yet.

Values and addresses are 64-bit words; buffer offsets and lengths are natural numbers, because a
buffer that exists in memory is shorter than the address space. `checks` is the overflow-check
setting of the build (`plainAdd`, `plainSub`). `none` is a panic.
-/

set_option autoImplicit false

namespace Patchouly.Core

open Patchouly.Lib

inductive RelocationEncoding where
  | invalid
  | generic
  | x86Signed
  | unknown
  deriving DecidableEq, Repr

/-- Every raw value from `Unknown` on reads as `Invalid`. -/
def RelocationEncoding.fromBits (bits : U8) : RelocationEncoding :=
  match bits.toNat with
  | 1 => .generic
  | 2 => .x86Signed
  | _ => .invalid

inductive PatchKind where
  | hole
  | stack
  | target
  | runtime
  | unknown
  deriving DecidableEq, Repr

def PatchKind.fromBits (bits : U8) : PatchKind :=
  match bits.toNat with
  | 0 => .hole
  | 1 => .stack
  | 2 => .target
  | 3 => .runtime
  | _ => .unknown

inductive PatchInfo where
  | hole (i : U16)
  | stack (i : U16)
  | target (i : U16)
  | runtime (i : U16)
  deriving DecidableEq, Repr

/-- `#[bitfield(u64)] struct Relocation`: the fields in declaration order, lowest bits first. -/
structure Relocation where
  bits : BitVec 64
  deriving DecidableEq

namespace Relocation

/-- `Relocation::new()`: all zeroes, the end marker of a relocation list. -/
def new : Relocation := ⟨0⟩

def offset (self : Relocation) : U16 := self.bits.extractLsb' 0 16

def encoding (self : Relocation) : RelocationEncoding :=
  .fromBits ((self.bits.extractLsb' 16 7).setWidth 8)

def relative (self : Relocation) : Bool := self.bits.getLsbD 23

def size (self : Relocation) : U8 := self.bits.extractLsb' 24 8

/-- A signed 12-bit field read as `i16`. -/
def addend (self : Relocation) : U16 := (self.bits.extractLsb' 32 12).signExtend 16

def patchKind (self : Relocation) : PatchKind :=
  .fromBits ((self.bits.extractLsb' 44 4).setWidth 8)

def patchId (self : Relocation) : U16 := self.bits.extractLsb' 48 16

def isInvalid (self : Relocation) : Bool := self.encoding = .invalid

def patchInfo (self : Relocation) : Option PatchInfo :=
  match self.patchKind with
  | .hole => some (.hole self.patchId)
  | .stack => some (.stack self.patchId)
  | .target => some (.target self.patchId)
  | .runtime => some (.runtime self.patchId)
  | .unknown => none

end Relocation

def fitsUnsigned (value : Usize) (bits : U8) : Bool :=
  if bits.toNat = 0 then value = 0
  else if 64 ≤ bits.toNat then true
  else value.toNat < 2 ^ bits.toNat

/-- `value` is the bit pattern of an `isize`; the right shift is arithmetic. -/
def fitsSigned (value : Usize) (bits : U8) : Bool :=
  if bits.toNat = 0 then value = 0
  else if 64 ≤ bits.toNat then true
  else ((value <<< (64 - bits.toNat)).sshiftRight (64 - bits.toNat)) = value

namespace Relocation

def supportsValue (self : Relocation) (value : Usize) : Bool :=
  if self.relative then false
  else
    match self.encoding with
    | .generic => fitsUnsigned value self.size
    | .x86Signed => fitsSigned value self.size
    | _ => false

/-- Bytes of the field: `size` counts bits and is rounded down. -/
def fieldLen (self : Relocation) : Nat := self.size.toNat / 8

/-- The value with the addend, cut to the field. -/
def fieldBytes (self : Relocation) (value : Usize) : List U8 :=
  leBytes (value + self.addend.signExtend 64) self.fieldLen

/-- `apply_raw(&mut dest[start..], value)`. Slicing more than the eight bytes of a `usize` panics,
and so does an encoding that is neither `Generic` nor `X86Signed`. -/
def applyRaw {β : Type} [ByteSlice β] (self : Relocation) (dest : β) (start : Nat)
    (value : Usize) : Option β :=
  match self.encoding with
  | .generic | .x86Signed =>
      if self.fieldLen ≤ 8 then
        ByteSlice.copyFromSlice dest (start + self.offset.toNat) (self.fieldBytes value)
      else none
  | _ => none

@[simp] theorem fieldBytes_length (self : Relocation) (value : Usize) :
    (self.fieldBytes value).length = self.fieldLen :=
  leBytes_length _ _

/-- The value range of a field of whole bytes, as `fits_unsigned` and `fits_signed` test it. -/
theorem fits_iff {value : Usize} {bits : U8} {n : Nat} (hbits : bits.toNat = 8 * n) (h0 : 0 < n)
    (h8 : n ≤ 8) :
    (fitsUnsigned value bits = true ↔ FitsField false n (wordValue false value)) ∧
      (fitsSigned value bits = true ↔ FitsField true n (wordValue true value)) := by
  have hne : bits.toNat ≠ 0 := by omega
  have hvalue := value.isLt
  constructor
  -- unsigned: the value has no bit above the field
  · change _ ↔ 0 ≤ (value.toNat : Int) ∧ (value.toNat : Int) < 2 ^ (8 * n)
    have hcast : ((2 : Int) ^ (8 * n)) = ((2 ^ (8 * n) : Nat) : Int) := by push_cast; rfl
    rw [fitsUnsigned, if_neg hne, hcast]
    split
    · next hfull =>
      obtain rfl : n = 8 := by omega
      constructor
      · intro _
        omega
      · intro _
        rfl
    · rw [decide_eq_true_eq, hbits]
      omega
  -- signed: shifting the field up and back gives the value again
  · change _ ↔ -(2 ^ (8 * n) : Int) ≤ value.toInt * 2 ∧ value.toInt * 2 < 2 ^ (8 * n)
    have hcast : ((2 : Int) ^ (8 * n)) = ((2 ^ (8 * n) : Nat) : Int) := by push_cast; rfl
    have hlow := @BitVec.le_two_mul_toInt 64 value
    have hhigh := @BitVec.two_mul_toInt_lt 64 value
    rw [fitsSigned, if_neg hne, hcast]
    split
    · next hfull =>
      obtain rfl : n = 8 := by omega
      constructor
      · intro _
        omega
      · intro _
        rfl
    · have hback := toInt_shift_back value (show 8 * n ≤ 64 by omega)
      have hpos : 0 < 2 ^ (8 * n) := Nat.two_pow_pos _
      have hle := Int.le_bmod (x := value.toInt) hpos
      have hlt := Int.bmod_lt (x := value.toInt) hpos
      rw [decide_eq_true_eq, hbits]
      constructor
      · intro h
        rw [h] at hback
        omega
      · rintro ⟨h1, h2⟩
        apply BitVec.eq_of_toInt_eq
        rw [hback]
        exact Int.bmod_eq_of_le_mul_two h1 h2

/-- Whether the field is read in two's complement by its encoding. -/
def signedEncoding (self : Relocation) : Bool := decide (self.encoding = .x86Signed)

/-- **`supportsValue`** asks whether the value fits an absolute field. -/
theorem supportsValue_iff {self : Relocation} (hsize : self.size.toNat ∈ [8, 16, 32, 64])
    (henc : self.encoding = .generic ∨ self.encoding = .x86Signed) (hrel : self.relative = false)
    (value : Usize) : self.supportsValue value = true ↔
      FitsField self.signedEncoding self.fieldLen (wordValue self.signedEncoding value) := by
  have hlen : self.size.toNat = 8 * self.fieldLen ∧ 0 < self.fieldLen ∧ self.fieldLen ≤ 8 := by
    simp only [List.mem_cons, List.not_mem_nil, or_false] at hsize
    rw [fieldLen]
    omega
  obtain ⟨hunsigned, hsigned⟩ := @fits_iff value self.size _ hlen.1 hlen.2.1 hlen.2.2
  rw [supportsValue, hrel, signedEncoding]
  rcases henc with henc | henc
  · simpa [henc] using hunsigned
  · simpa [henc] using hsigned

/-- A value is only supported by an absolute field with a known encoding. -/
theorem of_supportsValue {self : Relocation} {value : Usize} (h : self.supportsValue value = true) :
    self.relative = false ∧ (self.encoding = .generic ∨ self.encoding = .x86Signed) := by
  rw [supportsValue] at h
  split at h
  · cases h
  · next hrel =>
    refine ⟨by simpa using hrel, ?_⟩
    cases henc : self.encoding with
    | generic => exact Or.inl rfl
    | x86Signed => exact Or.inr rfl
    | invalid | unknown => simp [henc] at h

/-- What `applyRaw` does: one slice assignment, for an encoding it knows. -/
theorem applyRaw_eq_some {β : Type} [ByteSlice β] {self : Relocation} {dest dest' : β}
    {start : Nat} {value : Usize} (h : self.applyRaw dest start value = some dest') :
    self.fieldLen ≤ 8 ∧ (self.encoding = .generic ∨ self.encoding = .x86Signed) ∧
      ByteSlice.copyFromSlice dest (start + self.offset.toNat) (self.fieldBytes value) =
        some dest' := by
  rw [applyRaw] at h
  cases henc : self.encoding with
  | invalid => simp [henc] at h
  | unknown => simp [henc] at h
  | generic =>
      simp only [henc] at h
      split at h
      · next hl => exact ⟨hl, Or.inl rfl, h⟩
      · cases h
  | x86Signed =>
      simp only [henc] at h
      split at h
      · next hl => exact ⟨hl, Or.inr rfl, h⟩
      · cases h

end Relocation

inductive JumpTarget where
  /-- To the next stencil. -/
  | next
  /-- To a block id. -/
  | target (block : U16)
  deriving DecidableEq, Repr

inductive DelayedTarget where
  | block (block : U16)
  | constant (index : U16)
  | runtime (symbol : U16)
  | next
  deriving DecidableEq, Repr

/-- `offset` is the block offset the stencil was copied to. -/
structure DelayedRelocation where
  offset : Nat
  relocation : Relocation
  target : DelayedTarget
  deriving DecidableEq

namespace DelayedRelocation

def constant (offset : Nat) (relocation : Relocation) (constant : U16) : DelayedRelocation :=
  ⟨offset, relocation, .constant constant⟩

def location (self : DelayedRelocation) : Nat := self.offset + self.relocation.offset.toNat

/-- First position after the field. -/
def fieldEnd (self : DelayedRelocation) : Nat := self.location + self.relocation.fieldLen

def resolve (checks : Bool) (self : DelayedRelocation) (base value : Usize) : Option Usize :=
  if self.relocation.relative then
    (plainAdd checks base (BitVec.ofNat 64 self.location)).map fun place => value - place
  else some value

/-- `apply(&mut dest[start..], value)`. -/
def apply {β : Type} [ByteSlice β] (self : DelayedRelocation) (dest : β) (start : Nat)
    (value : Usize) : Option β :=
  self.relocation.applyRaw dest (start + self.offset) value

/-- The end of `try_apply`: a relative value loses the place inside the block, then the field is
written. -/
def applyNow (checks : Bool) (dest : List U8) (offset : Nat) (relocation : Relocation)
    (value : Usize) : Option (List U8) :=
  (if relocation.relative then
    plainSub checks value (BitVec.ofNat 64 (offset + relocation.offset.toNat))
  else some value).bind fun value => relocation.applyRaw dest offset value

/-- `try_apply`: patch the field now, or return the entry whose target is known later. -/
def tryApply (checks : Bool) (dest : List U8) (offset : Nat) (relocation : Relocation)
    (stackVars holes : List Usize) (jumps : List JumpTarget) (rtSymbols : List Usize) :
    Option (List U8 × Option DelayedRelocation) := do
  match ← relocation.patchInfo with
  | .hole i =>
      let value ← holes[i.toNat]?
      return (← applyNow checks dest offset relocation value, none)
  | .stack i =>
      let value ← stackVars[i.toNat]?
      return (← applyNow checks dest offset relocation value, none)
  | .target i =>
      match ← jumps[i.toNat]? with
      | .next => return (dest, some ⟨offset, relocation, .next⟩)
      | .target target => return (dest, some ⟨offset, relocation, .block target⟩)
  | .runtime i =>
      let value ← rtSymbols[i.toNat]?
      if ¬ relocation.supportsValue value then
        return (dest, some ⟨offset, relocation, .runtime i⟩)
      else
        return (← applyNow checks dest offset relocation value, none)

/-- The value `resolve` computes, whatever the build. -/
def resolved (self : DelayedRelocation) (base value : Usize) : Usize :=
  if self.relocation.relative then value - (base + BitVec.ofNat 64 self.location) else value

theorem eq_of_resolve {checks : Bool} {self : DelayedRelocation} {base value v : Usize}
    (h : self.resolve checks base value = some v) : v = self.resolved base value := by
  rw [resolve] at h
  rw [resolved]
  split at h
  · next hr =>
    rw [if_pos hr]
    simp only [Option.map_eq_some_iff] at h
    obtain ⟨place, hp, rfl⟩ := h
    rw [eq_of_plainAdd hp]
  · next hr =>
    rw [if_neg hr]
    exact (Option.some.inj h).symm

/-- The slice assignment of `apply`. -/
def fieldWrite (self : DelayedRelocation) (start : Nat) (value : Usize) : Write :=
  ⟨start + self.location, self.relocation.fieldBytes value⟩

@[simp] theorem fieldWrite_pos (self : DelayedRelocation) (start : Nat) (value : Usize) :
    (self.fieldWrite start value).pos = start + self.location := rfl

@[simp] theorem fieldWrite_stop (self : DelayedRelocation) (start : Nat) (value : Usize) :
    (self.fieldWrite start value).stop = start + self.fieldEnd := by
  simp only [fieldWrite, Write.stop, fieldEnd, Relocation.fieldBytes_length]
  omega

theorem fieldWrite_covers {self : DelayedRelocation} {start : Nat} {value : Usize} {x : Nat} :
    (self.fieldWrite start value).Covers x ↔
      start + self.location ≤ x ∧ x < start + self.fieldEnd := by
  rw [Write.Covers, fieldWrite_pos, fieldWrite_stop]

theorem apply_eq_some {β : Type} [ByteSlice β] {self : DelayedRelocation} {dest dest' : β}
    {start : Nat} {value : Usize} (h : self.apply dest start value = some dest') :
    self.relocation.fieldLen ≤ 8 ∧
      ByteSlice.copyFromSlice dest (self.fieldWrite start value).pos
        (self.fieldWrite start value).bytes = some dest' := by
  obtain ⟨hl, -, hc⟩ := Relocation.applyRaw_eq_some h
  rw [Nat.add_assoc] at hc
  exact ⟨hl, hc⟩

theorem applyNow_eq_some {checks : Bool} {dest dest' : List U8} {offset : Nat}
    {relocation : Relocation} {value : Usize}
    (h : applyNow checks dest offset relocation value = some dest') :
    ∃ v, (relocation.relative = false → v = value) ∧
      relocation.applyRaw dest offset v = some dest' := by
  rw [applyNow] at h
  obtain ⟨v, hv, h⟩ := Option.bind_eq_some_iff.1 h
  refine ⟨v, ?_, h⟩
  intro hrel
  simp only [hrel, Bool.false_eq_true, if_false, Option.some.injEq] at hv
  exact hv.symm

/-- What `tryApply` can do: return an entry and leave the bytes alone, or write the relocation's
own field. -/
theorem tryApply_cases {checks : Bool} {dest : List U8} {offset : Nat} {relocation : Relocation}
    {stackVars holes : List Usize} {jumps : List JumpTarget} {rtSymbols : List Usize}
    {out : List U8 × Option DelayedRelocation}
    (h : tryApply checks dest offset relocation stackVars holes jumps rtSymbols = some out) :
    (∃ i j, relocation.patchInfo = some (.target i) ∧ jumps[i.toNat]? = some j ∧ out.1 = dest ∧
      out.2 = some ⟨offset, relocation,
        match j with | .next => .next | .target b => .block b⟩) ∨
    (∃ i, relocation.patchInfo = some (.runtime i) ∧ i.toNat < rtSymbols.length ∧ out.1 = dest ∧
      out.2 = some ⟨offset, relocation, .runtime i⟩) ∨
    (∃ value, (∀ i, relocation.patchInfo ≠ some (.target i)) ∧ out.2 = none ∧
      (∀ i, relocation.patchInfo = some (.stack i) → relocation.relative = false →
        stackVars[i.toNat]? = some value) ∧
      relocation.applyRaw dest offset value = some out.1) := by
  simp only [tryApply, Option.bind_eq_bind, Option.pure_def] at h
  obtain ⟨info, hinfo, h⟩ := Option.bind_eq_some_iff.1 h
  -- the entry's kind decides: holes and stack slots are written, jumps are delayed
  cases info with
  | hole i =>
      obtain ⟨value, -, h⟩ := Option.bind_eq_some_iff.1 h
      obtain ⟨d, hd, h⟩ := Option.bind_eq_some_iff.1 h
      obtain rfl := Option.some.inj h
      obtain ⟨v, -, hv⟩ := applyNow_eq_some hd
      exact Or.inr (Or.inr ⟨v, by simp [hinfo], rfl, by simp [hinfo], hv⟩)
  | stack i =>
      obtain ⟨value, hs, h⟩ := Option.bind_eq_some_iff.1 h
      obtain ⟨d, hd, h⟩ := Option.bind_eq_some_iff.1 h
      obtain rfl := Option.some.inj h
      obtain ⟨v, heq, hv⟩ := applyNow_eq_some hd
      refine Or.inr (Or.inr ⟨v, by simp [hinfo], rfl, ?_, hv⟩)
      intro i' hi' hrel
      obtain rfl : i = i' := by simpa [hinfo] using hi'
      rw [heq hrel, hs]
  | target i =>
      obtain ⟨j, hj, h⟩ := Option.bind_eq_some_iff.1 h
      refine Or.inl ⟨i, j, hinfo, hj, ?_⟩
      cases j with
      | next =>
          obtain rfl := Option.some.inj h
          exact ⟨rfl, rfl⟩
      | target b =>
          obtain rfl := Option.some.inj h
          exact ⟨rfl, rfl⟩
  | runtime i =>
      obtain ⟨value, hr, h⟩ := Option.bind_eq_some_iff.1 h
      have hlt := (List.getElem?_eq_some_iff.1 hr).1
      -- a relative call is delayed, an absolute one gets the address at once
      split at h
      · obtain rfl := Option.some.inj h
        exact Or.inr (Or.inl ⟨i, hinfo, hlt, rfl, rfl⟩)
      · obtain ⟨d, hd, h⟩ := Option.bind_eq_some_iff.1 h
        obtain rfl := Option.some.inj h
        obtain ⟨v, -, hv⟩ := applyNow_eq_some hd
        exact Or.inr (Or.inr ⟨v, by simp [hinfo], rfl, by simp [hinfo], hv⟩)

end DelayedRelocation

end Patchouly.Core
