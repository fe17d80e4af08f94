import Patchouly.Patch.Plan
import Patchouly.Patch.Calls
import Mathlib.Data.BitVec

/-!
# The values of delayed fields

`exactValue` is the integer that a delayed field stands for: target plus addend, minus the place of
the field when it is relative. `finalizeInto` writes its low bytes (`entryWrite_bytes`), and never
checks that they hold the whole number. `fieldsExact_iff` says when all fields read back as their
exact values: every value fits its field, and overlapping fields want the same bytes.
-/

set_option autoImplicit false

namespace Patchouly.Patch

open Patchouly.Lib Patchouly.Core

/-- Whether the field is read in two's complement. -/
def signedField (r : Relocation) : Bool := r.relative || decide (r.encoding = .x86Signed)

namespace PatchBlock

variable {MAX_REGS : Nat}

section Exact

variable (b : PatchBlock MAX_REGS) (base : Usize) (off : Nat) (blocks : ProgramBlocks)

/-- The address an entry refers to, as a number. -/
def exactTarget : DelayedTarget → Nat
  | .block t => base.toNat + (blocks.resolveTarget t).getD 0
  | .constant n => base.toNat + off + b.poolBase + n.toNat * usizeSize
  | .runtime s => base.toNat + off + b.trampolineStart s
  | .next => 0

/-- The address of the field. -/
def place (d : DelayedRelocation) : Nat := base.toNat + off + d.location

/-- **Target + addend - place**, with place 0 for an absolute field. -/
def exactValue (d : DelayedRelocation) : Int :=
  b.exactTarget base off blocks d.target + d.relocation.addend.toInt -
    if d.relocation.relative then (place base off d : Int) else 0

/-- The low bytes of the exact value. -/
def exactBytes (d : DelayedRelocation) : List U8 :=
  leBytes (BitVec.ofInt 64 (b.exactValue base off blocks d)) d.relocation.fieldLen

@[simp] theorem exactBytes_length (d : DelayedRelocation) :
    (b.exactBytes base off blocks d).length = d.relocation.fieldLen :=
  leBytes_length _ _

/-- The field reads back as the exact value. -/
def FieldExact (bytes : List U8) (d : DelayedRelocation) : Prop :=
  fieldValue (signedField d.relocation)
    (readBytes bytes (off + d.location) d.relocation.fieldLen) = b.exactValue base off blocks d

/-- The exact value is one the field can hold. -/
def ValueFits (d : DelayedRelocation) : Prop :=
  FitsField (signedField d.relocation) d.relocation.fieldLen (b.exactValue base off blocks d)

/-- Where two delayed fields overlap, their exact values have the same bytes. -/
def FieldsAgree : Prop :=
  ∀ d ∈ b.delayedEntries, ∀ d' ∈ b.delayedEntries, ∀ x : Nat,
    d.location ≤ x → x < d.fieldEnd → d'.location ≤ x → x < d'.fieldEnd →
      (b.exactBytes base off blocks d)[x - d.location]? =
        (b.exactBytes base off blocks d')[x - d'.location]?

end Exact

variable {checks : Bool} {b : PatchBlock MAX_REGS} {base : Usize} {off : Nat}
  {blocks : ProgramBlocks} {d : DelayedRelocation}

theorem ofNat_toNat (v : Usize) : BitVec.ofNat 64 v.toNat = v := by simp

/-- The computed target is the exact one, modulo the word. -/
theorem entryTarget_eq (h : (b.entryTarget base off blocks d.target).isSome) :
    (b.entryTarget base off blocks d.target).getD 0 =
      BitVec.ofNat 64 (b.exactTarget base off blocks d.target) := by
  cases ht : d.target with
  | block t =>
      rw [ht] at h
      simp only [entryTarget, Option.isSome_map] at h
      obtain ⟨o, ho⟩ := Option.isSome_iff_exists.1 h
      simp only [entryTarget, exactTarget, ho, Option.map_some, Option.getD_some, BitVec.ofNat_add,
        ofNat_toNat]
  | constant n =>
      simp only [entryTarget, exactTarget, Option.getD_some, BitVec.ofNat_add, ofNat_toNat]
  | runtime s =>
      simp only [entryTarget, exactTarget, Option.getD_some, BitVec.ofNat_add, ofNat_toNat]
  | next =>
      rw [ht] at h
      cases h

/-- The low bytes of target + addend - place, for a slice at the address `start`. -/
theorem fieldBytes_resolved (d : DelayedRelocation) (start target : Nat) :
    d.relocation.fieldBytes (d.resolved (BitVec.ofNat 64 start) (BitVec.ofNat 64 target)) =
      leBytes (BitVec.ofInt 64 (target + d.relocation.addend.toInt -
        if d.relocation.relative then ((start + d.location : Nat) : Int) else 0))
          d.relocation.fieldLen := by
  have haddend : d.relocation.addend.signExtend 64 =
      BitVec.ofInt 64 d.relocation.addend.toInt := rfl
  rw [Relocation.fieldBytes, haddend, DelayedRelocation.resolved]
  congr 1
  split
  · rw [Int.sub_eq_add_neg, BitVec.ofInt_add, BitVec.ofInt_add, BitVec.ofInt_neg,
      BitVec.ofInt_natCast, BitVec.ofInt_natCast, BitVec.ofNat_add start]
    ring
  · rw [Int.sub_zero, BitVec.ofInt_add, BitVec.ofInt_natCast]

/-- The bytes of a resolved jump inside the block. -/
theorem jumpWrite_bytes (target : Nat) (d : DelayedRelocation) :
    (jumpWrite target d).bytes = leBytes (BitVec.ofInt 64 (target + d.relocation.addend.toInt -
      if d.relocation.relative then (d.location : Int) else 0)) d.relocation.fieldLen := by
  have h := fieldBytes_resolved d 0 target
  rw [Nat.zero_add] at h
  exact h

/-- **The bytes `finalizeInto` writes** are the low bytes of the exact value. -/
theorem entryWrite_bytes (h : (b.entryTarget base off blocks d.target).isSome) :
    (b.entryWrite base off blocks d).bytes = b.exactBytes base off blocks d := by
  have hstart : base + BitVec.ofNat 64 off = BitVec.ofNat 64 (base.toNat + off) := by
    rw [BitVec.ofNat_add, ofNat_toNat]
  rw [entryWrite, DelayedRelocation.fieldWrite, entryTarget_eq h, hstart]
  exact fieldBytes_resolved d _ _

/-! ## A finalized map -/

section Finalized

variable {map map' : LoggedBuffer}

/-- The bytes of a delayed field in a finalized map, when all fields over it want the same. -/
theorem readBytes_of_agree (h : b.finalizeInto checks base off map blocks = some (.ok (), map'))
    (hd : d ∈ b.delayedEntries)
    (hagree : ∀ d' ∈ b.delayedEntries, ∀ x : Nat, d.location ≤ x → x < d.fieldEnd →
      d'.location ≤ x → x < d'.fieldEnd →
        (b.exactBytes base off blocks d)[x - d.location]? =
          (b.exactBytes base off blocks d')[x - d'.location]?) :
    readBytes map'.bytes (off + d.location) d.relocation.fieldLen =
      b.exactBytes base off blocks d := by
  obtain ⟨-, -, -, hext, hall⟩ := finalizeInto_ok h
  have hbyte : ∀ e ∈ b.delayedEntries, ∀ x : Nat, e.location ≤ x →
      (b.entryWrite base off blocks e).byteAt (off + x) =
        (b.exactBytes base off blocks e)[x - e.location]? := by
    intro e he x hx
    have hpos : (b.entryWrite base off blocks e).pos = off + e.location := rfl
    rw [Write.byteAt, if_pos (by rw [hpos]; omega), entryWrite_bytes (hall e he).1, hpos,
      show off + x - (off + e.location) = x - e.location by omega]
  have hcovers : ∀ e : DelayedRelocation, ∀ x : Nat,
      (b.entryWrite base off blocks e).Covers (off + x) ↔ e.location ≤ x ∧ x < e.fieldEnd := by
    intro e x
    rw [entryWrite, DelayedRelocation.fieldWrite_covers]
    omega
  rw [← b.exactBytes_length base off blocks d]
  apply readBytes_eq_of_getElem?
  intro i hi
  rw [exactBytes_length] at hi
  have hin : d.location ≤ d.location + i ∧ d.location + i < d.fieldEnd :=
    ⟨by omega, by rw [DelayedRelocation.fieldEnd]; omega⟩
  -- the entries are written last, and those over this position agree
  have hlast : lastByte (b.delayedEntries.map (b.entryWrite base off blocks))
      (off + (d.location + i)) =
        (b.entryWrite base off blocks d).byteAt (off + (d.location + i)) := by
    apply lastByte_of_agree (List.mem_map_of_mem hd) ((hcovers d _).2 hin)
    intro w hw hc
    obtain ⟨d', hd', rfl⟩ := List.mem_map.1 hw
    obtain ⟨h1, h2⟩ := (hcovers d' _).1 hc
    rw [hbyte d' hd' _ h1, hbyte d hd _ hin.1]
    exact (hagree d' hd' _ hin.1 hin.2 h1 h2).symm
  rw [Nat.add_assoc, applyWrites_getElem? hext.bytes, finalWrites, lastByte_append, hlast,
    hbyte d hd _ hin.1, Nat.add_sub_cancel_left,
    List.getElem?_eq_getElem (by rw [exactBytes_length]; exact hi), Option.some_or, Option.some_or]

theorem readBytes_length (h : b.finalizeInto checks base off map blocks = some (.ok (), map'))
    (hd : d ∈ b.delayedEntries) :
    (readBytes map'.bytes (off + d.location) d.relocation.fieldLen).length =
      d.relocation.fieldLen := by
  obtain ⟨-, -, -, hext, -⟩ := finalizeInto_ok h
  have hfit := applyWrites_fits hext.bytes (b.entryWrite base off blocks d)
    (List.mem_append_right _ (List.mem_map_of_mem hd))
  rw [entryWrite, DelayedRelocation.fieldWrite_stop, DelayedRelocation.fieldEnd] at hfit
  have hlen := applyWrites_length hext.bytes
  simp only [readBytes, List.length_take, List.length_drop]
  omega

/-- **All delayed fields hold their exact values** if and only if every value fits its field and
overlapping fields agree. A value that does not fit is cut, and `finalizeInto` still succeeds. -/
theorem fieldsExact_iff (h : b.finalizeInto checks base off map blocks = some (.ok (), map')) :
    (∀ d ∈ b.delayedEntries, b.FieldExact base off blocks map'.bytes d) ↔
      (∀ d ∈ b.delayedEntries, b.ValueFits base off blocks d) ∧ b.FieldsAgree base off blocks := by
  have hle : ∀ d ∈ b.delayedEntries, d.relocation.fieldLen ≤ 8 :=
    fun d hd => ((finalizeInto_ok h).2.2.2.2 d hd).2
  constructor
  · intro hexact
    have hread : ∀ d ∈ b.delayedEntries, b.ValueFits base off blocks d ∧
        readBytes map'.bytes (off + d.location) d.relocation.fieldLen =
          b.exactBytes base off blocks d := by
      intro d hd
      have hlen := readBytes_length h hd
      have hfield := (fieldValue_eq_iff (by rw [hlen]; exact hle d hd)).1 (hexact d hd)
      rw [hlen] at hfield
      exact hfield
    refine ⟨fun d hd => (hread d hd).1, ?_⟩
    intro d hd d' hd' x h1 h2 h3 h4
    -- both fields hold the byte of the map
    have hbyte : ∀ e ∈ b.delayedEntries, e.location ≤ x → x < e.fieldEnd →
        map'.bytes[off + x]? = (b.exactBytes base off blocks e)[x - e.location]? := by
      intro e he hx hx'
      have hlt : x - e.location < (b.exactBytes base off blocks e).length := by
        rw [exactBytes_length]
        rw [DelayedRelocation.fieldEnd] at hx'
        omega
      have hget := (hread e he).2
      rw [← b.exactBytes_length base off blocks e] at hget
      have := getElem?_of_readBytes hget hlt
      rw [show off + e.location + (x - e.location) = off + x by omega] at this
      rw [this, List.getElem?_eq_getElem hlt]
    rw [← hbyte d hd h1 h2, ← hbyte d' hd' h3 h4]
  · rintro ⟨hfits, hagree⟩ d hd
    have hlen := readBytes_length h hd
    apply (fieldValue_eq_iff (by rw [hlen]; exact hle d hd)).2
    rw [hlen]
    exact ⟨hfits d hd, readBytes_of_agree h hd (hagree d hd)⟩

end Finalized

/-! ## A jump through an absolute field -/

/-- An absolute 32-bit field at offset 1 for `Target(0)`. -/
def absoluteField : Relocation := ⟨0x0000200020010001⟩

def absoluteFamily {IN OUT JUMPS : Nat} : StencilFamily IN OUT 1 0 JUMPS :=
  ⟨[absoluteField, .new], [⟨5, 5, 0⟩]⟩

/-- A block that jumps to itself. -/
def selfJump : Option (PatchBlock 1) :=
  ((PatchBlock.new sampleLibrary).call true
    (.endBranch absoluteFamily nil nil nil (.singleton (.target 0)))).map (·.2)

/-- The block alone in a program of five bytes. -/
def linkSelfJump (base : Usize) : Option (PatchBlock 1 × Option Unit × LoggedBuffer) :=
  selfJump.bind fun b =>
    (b.finalizeInto true base 0 ⟨List.replicate 5 0, []⟩ ⟨[0]⟩).map fun p =>
      (b, p.1.toOption, p.2)

theorem linkSelfJump_eq {base : Usize} {b : PatchBlock 1} {res : Option Unit} {map : LoggedBuffer}
    (h : linkSelfJump base = some (b, res, map)) : selfJump = some b ∧
      (res = some () → b.finalizeInto true base 0 ⟨List.replicate 5 0, []⟩ ⟨[0]⟩ =
        some (.ok (), map)) := by
  obtain ⟨b', hb, h1⟩ := Option.bind_eq_some_iff.1 h
  obtain ⟨⟨out, map'⟩, hfin, hp⟩ := Option.map_eq_some_iff.1 h1
  simp only [Prod.mk.injEq] at hp
  obtain ⟨rfl, rfl, rfl⟩ := hp
  refine ⟨hb, fun hok => ?_⟩
  cases out with
  | error e => cases hok
  | ok u => exact hfin

theorem fieldsExact_low : ∃ b map, linkSelfJump 0x1000 = some (b, some (), map) ∧
    map.bytes = [0xE9, 0, 0x10, 0, 0] ∧
      ∀ d ∈ b.delayedEntries, b.FieldExact 0x1000 0 ⟨[0]⟩ map.bytes d := by
  have hrun : (linkSelfJump 0x1000).map (fun p => (p.2.1, p.2.2.bytes, p.1.delayedEntries)) =
      some (some (), [0xE9, 0, 0x10, 0, 0], [⟨0, absoluteField, .block 0⟩]) := by
    decide +kernel
  obtain ⟨⟨b, res, map⟩, hlink, hstate⟩ := Option.map_eq_some_iff.1 hrun
  simp only [Prod.mk.injEq] at hstate
  obtain ⟨rfl, hbytes, hentries⟩ := hstate
  refine ⟨b, map, hlink, hbytes, (fieldsExact_iff ((linkSelfJump_eq hlink).2 rfl)).2 ⟨?_, ?_⟩⟩
  · intro d hd
    rw [hentries, List.mem_singleton] at hd
    subst hd
    rw [ValueFits, show b.exactValue _ _ _ _ = 0x1000 from rfl]
    decide
  · intro d hd d' hd' x _ _ _ _
    rw [hentries, List.mem_singleton] at hd hd'
    rw [hd, hd']

/-- **A value that does not fit is cut**: at base `2 ^ 32` the field of the jump is zero. -/
theorem not_fieldsExact : ¬ ∀ (b : PatchBlock 1) (base : Usize) (off : Nat) (blocks : ProgramBlocks)
    (map map' : LoggedBuffer), (blockSystem true sampleLibrary).Reachable b →
      b.finalizeInto true base off map blocks = some (.ok (), map') →
        ∀ d ∈ b.delayedEntries, b.FieldExact base off blocks map'.bytes d := by
  intro hall
  have hrun : (linkSelfJump 0x100000000).map (fun p => (p.2.1, p.2.2.bytes, p.1.delayedEntries)) =
      some (some (), [0xE9, 0, 0, 0, 0], [⟨0, absoluteField, .block 0⟩]) := by
    decide +kernel
  obtain ⟨⟨b, res, map⟩, hlink, hstate⟩ := Option.map_eq_some_iff.1 hrun
  simp only [Prod.mk.injEq] at hstate
  obtain ⟨rfl, hbytes, hentries⟩ := hstate
  obtain ⟨hself, hfin⟩ := linkSelfJump_eq hlink
  have hreach : (blockSystem true sampleLibrary).Reachable b := by
    obtain ⟨⟨res, b'⟩, hcall, rfl⟩ := Option.map_eq_some_iff.1 hself
    exact .step _ (.init rfl) ⟨res, hcall⟩
  have hexact := hall b _ _ _ _ _ hreach (hfin rfl) ⟨0, absoluteField, .block 0⟩
    (by rw [hentries]; exact List.mem_singleton.2 rfl)
  rw [FieldExact, hbytes, show b.exactValue _ _ _ _ = 0x100000000 from rfl] at hexact
  revert hexact
  decide

end PatchBlock

end Patchouly.Patch
