import Patchouly.Patch.Entries
import Patchouly.Patch.Layout
import Mathlib.Data.List.Nodup

/-!
# The constant pool of a finalized block

The hole values of wide stencils are collected in `constants`, and each delayed entry records the
position of its value, cut to 16 bits. `finalizeInto` computes the slot's address from that index.

`readBytes_slot_iff` is the content of a slot, `resolvedTo_of_mem` the address an entry is patched with.
-/

set_option autoImplicit false

namespace Patchouly.Patch

open Patchouly.Lib Patchouly.Core

/-- The write that patches an entry with an address. -/
def fieldFor (base : Usize) (off : Nat) (d : DelayedRelocation) (address : Usize) : Write :=
  d.fieldWrite off (d.resolved (base + BitVec.ofNat 64 off) address)

/-- The delayed entries of the trampolines, one by one. -/
theorem mem_trampolineEntries_iff {entries : List Relocation} {len start index : Nat}
    {symbols : List U16} {d : DelayedRelocation} :
    d ∈ trampolineEntries entries len start index symbols ↔
      ∃ i r, i < symbols.length ∧ r ∈ entries ∧
        d = .constant (start + i * len) r (BitVec.ofNat 16 (index + i)) := by
  induction symbols generalizing start index with
  | nil =>
      constructor
      · intro h
        cases h
      · rintro ⟨i, r, hi, -⟩
        cases hi
  | cons s rest ih =>
      rw [trampolineEntries, List.mem_append, List.mem_map, ih]
      constructor
      · rintro (⟨r, hr, rfl⟩ | ⟨i, r, hi, hr, rfl⟩)
        · exact ⟨0, r, Nat.succ_pos _, hr, by rw [Nat.zero_mul, Nat.add_zero, Nat.add_zero]⟩
        · refine ⟨i + 1, r, Nat.succ_lt_succ hi, hr, ?_⟩
          rw [Nat.add_mul, Nat.one_mul, Nat.add_assoc, Nat.add_comm len, Nat.add_assoc,
            Nat.add_comm 1 i]
      · rintro ⟨i, r, hi, hr, rfl⟩
        cases i with
        | zero =>
            left
            exact ⟨r, hr, by rw [Nat.zero_mul, Nat.add_zero, Nat.add_zero]⟩
        | succ i =>
            right
            refine ⟨i, r, Nat.lt_of_succ_lt_succ hi, hr, ?_⟩
            rw [Nat.add_mul, Nat.one_mul, Nat.add_assoc, Nat.add_comm len, Nat.add_assoc,
              Nat.add_comm 1 i]

theorem nextMultipleOf_mod (n : Nat) {m : Nat} (hm : 0 < m) : nextMultipleOf n m % m = 0 := by
  rw [nextMultipleOf]
  split
  · next h => exact h
  · have hlt := Nat.mod_lt n hm
    have hdiv := Nat.div_add_mod n m
    -- the rest `n % m` is filled up to `m`
    have hsum : n + (m - n % m) = m * (n / m + 1) := by
      rw [Nat.mul_add, Nat.mul_one]
      omega
    rw [hsum, Nat.mul_mod_right]

namespace PatchBlock

variable {MAX_REGS : Nat}

section Slots

variable (b : PatchBlock MAX_REGS)

/-- Start of a pool slot inside the block. -/
def slotStart (n : Nat) : Nat := b.poolBase + usizeSize * n

/-- The address of a pool slot. -/
def slotAddress (base : Usize) (off n : Nat) : Usize :=
  base + BitVec.ofNat 64 off + BitVec.ofNat 64 b.poolBase + BitVec.ofNat 64 (n * usizeSize)

/-- The write that fills a pool slot. -/
def slotWrite (off n : Nat) (v : Usize) : Write := ⟨off + b.slotStart n, neBytes v⟩

/-- The delayed fields leave the bytes of a slot, or write the same ones. -/
def SlotKept (base : Usize) (off : Nat) (blocks : ProgramBlocks) (n : Nat) (v : Usize) : Prop :=
  (b.slotWrite off n v).KeptBy (b.delayedEntries.map (b.entryWrite base off blocks))

/-- No delayed field lies over the pool. -/
def PoolUntouched : Prop :=
  ∀ d ∈ b.delayedEntries, d.fieldEnd ≤ b.poolBase ∨ b.slotStart b.poolValues.length ≤ d.location

instance : Decidable b.PoolUntouched := inferInstanceAs (Decidable (∀ d ∈ b.delayedEntries, _))

/-- `finalizeInto` patched an entry with an address; the field holds it unless a later write has
changed it. -/
structure ResolvedTo (base : Usize) (off : Nat) (blocks : ProgramBlocks) (map map' : LoggedBuffer)
    (d : DelayedRelocation) (address : Usize) : Prop where
  entry : d ∈ b.delayedEntries
  write : b.entryWrite base off blocks d = fieldFor base off d address
  made : ∃ pre post, map'.log = map.log ++ (pre ++ fieldFor base off d address :: post) ∧
    (readBytes map'.bytes (off + d.location) d.relocation.fieldLen =
        (fieldFor base off d address).bytes ↔ (fieldFor base off d address).KeptBy post)

end Slots

variable {checks : Bool} {b : PatchBlock MAX_REGS} {base : Usize} {off : Nat}
  {blocks : ProgramBlocks} {map map' : LoggedBuffer}

theorem resolvedTo_of_mem (h : b.finalizeInto checks base off map blocks = some (.ok (), map'))
    {d : DelayedRelocation} (hd : d ∈ b.delayedEntries) {address : Usize}
    (ht : b.entryTarget base off blocks d.target = some address) :
    b.ResolvedTo base off blocks map map' d address := by
  obtain ⟨-, -, -, hext, -⟩ := finalizeInto_ok h
  have hwrite : b.entryWrite base off blocks d = fieldFor base off d address := by
    rw [entryWrite, ht]
    rfl
  refine ⟨hd, hwrite, ?_⟩
  -- the log, split at the entry
  have hmem : fieldFor base off d address ∈ b.finalWrites base off blocks := by
    rw [← hwrite]
    exact List.mem_append_right _ (List.mem_map_of_mem hd)
  obtain ⟨pre, post, hsplit⟩ := List.append_of_mem hmem
  refine ⟨pre, post, by rw [hext.log, hsplit], ?_⟩
  have hbytes := hext.bytes
  rw [hsplit] at hbytes
  have hread := readBytes_iff_keptBy hbytes
  have hlen : (fieldFor base off d address).bytes.length = d.relocation.fieldLen :=
    Relocation.fieldBytes_length _ _
  rw [hlen] at hread
  exact hread

/-- The slots are filled before the relocation loop. -/
theorem slotWrite_mem {n : Nat} {v : Usize} (hv : b.poolValues[n]? = some v) :
    b.slotWrite off n v ∈ b.layoutWrites off := by
  rw [slotWrite, slotStart, ← Nat.add_assoc]
  exact List.mem_cons_of_mem _ (List.mem_append_right _ (mem_poolWrites hv))

/-- The fields of a block whose pool is untouched keep its slots. -/
theorem slotKept_of_poolUntouched (hfree : b.PoolUntouched) {n : Nat} {v : Usize}
    (hv : b.poolValues[n]? = some v) : b.SlotKept base off blocks n v := by
  have hn : n < b.poolValues.length := (List.getElem?_eq_some_iff.1 hv).1
  have hlen : (neBytes v).length = usizeSize := leBytes_length _ _
  have hslot : b.slotStart n + usizeSize ≤ b.slotStart b.poolValues.length := by
    have hmul : usizeSize * (n + 1) ≤ usizeSize * b.poolValues.length :=
      Nat.mul_le_mul_left _ hn
    rw [Nat.mul_add, Nat.mul_one] at hmul
    rw [slotStart, slotStart]
    omega
  have hlow : b.poolBase ≤ b.slotStart n := Nat.le_add_right _ _
  intro x hx v' hv'
  have hnone : lastByte (b.delayedEntries.map (b.entryWrite base off blocks)) x = none := by
    apply lastByte_eq_none
    intro w hw hc
    obtain ⟨d, hd, rfl⟩ := List.mem_map.1 hw
    rw [entryWrite, DelayedRelocation.fieldWrite_covers] at hc
    have hpos := hx.1
    have hstop := hx.2
    simp only [slotWrite, Write.stop, hlen] at hpos hstop
    rcases hfree d hd with hfree | hfree <;> omega
  rw [hnone] at hv'
  cases hv'

/-- **A pool slot** holds its value exactly when the delayed fields keep it. -/
theorem readBytes_slot_iff (h : b.finalizeInto checks base off map blocks = some (.ok (), map'))
    {n : Nat} {v : Usize} (hv : b.poolValues[n]? = some v) :
    readBytes map'.bytes (off + b.slotStart n) usizeSize = neBytes v ↔
      b.SlotKept base off blocks n v := by
  have hlen : (neBytes v).length = usizeSize := leBytes_length _ _
  have hread := readBytes_iff_of_lastByte fun x hx => byte_of_layout h (slotWrite_mem hv) hx
  simp only [slotWrite, hlen] at hread
  exact hread

/-- A long jump that was placed has code. -/
theorem longJumpCode_ne_nil (h : b.finalizeInto checks base off map blocks = some (.ok (), map'))
    (hne : b.runtimeTrampolineSymbols ≠ []) : 0 < b.longJumpCode.length := by
  obtain ⟨-, -, hlong, -, -⟩ := finalizeInto_ok h
  obtain ⟨lj, hlj, hcode⟩ := hlong hne
  rw [longJumpStencil] at hlj
  obtain ⟨sel, hsel, hmap⟩ := Option.map_eq_some_iff.1 hlj
  obtain ⟨sel', rfl, rfl⟩ := Option.map_eq_some_iff.1 hmap
  have hlen := (StencilFamily.select_mem hsel).2
  rw [Stencil.code_length hcode]
  apply Nat.pos_of_ne_zero
  intro hzero
  exact hlen (BitVec.eq_of_toNat_eq hzero)

/-- The delayed entry `d` was made for the pool slot `j`. -/
inductive Reader (b : PatchBlock MAX_REGS) : Nat → DelayedRelocation → Prop
  | hole {k : Nat} {d : DelayedRelocation} (hd : (b.relocations.filter isConstant)[k]? = some d) :
      Reader b k d
  | trampoline {i : Nat} {s : U16} {d : DelayedRelocation}
      (hs : b.runtimeTrampolineSymbols[i]? = some s)
      (hd : d ∈ b.delayedEntries.drop b.relocations.length) (ho : d.offset = b.trampolineStart s) :
      Reader b (b.constants.length + i) d

theorem drop_delayedEntries (b : PatchBlock MAX_REGS) :
    b.delayedEntries.drop b.relocations.length =
      trampolineEntries b.longJumpEntries b.longJumpCode.length b.code.length b.constants.length
        b.runtimeTrampolineSymbols := by
  rw [delayedEntries, List.drop_left]

theorem trampolineStart_getElem {i : Nat} {s : U16} (hs : b.runtimeTrampolineSymbols[i]? = some s) :
    b.trampolineStart s = b.code.length + i * b.longJumpCode.length := by
  obtain ⟨hi, rfl⟩ := List.getElem?_eq_some_iff.1 hs
  rw [trampolineStart, List.Nodup.idxOf_getElem b.runtimeTrampolineSymbols_nodup i hi]

/-- The entries of a trampoline read the slot of its symbol. -/
theorem target_of_trampoline (hlen : 0 < b.longJumpCode.length) {i : Nat} {s : U16}
    {d : DelayedRelocation} (hs : b.runtimeTrampolineSymbols[i]? = some s)
    (hd : d ∈ b.delayedEntries.drop b.relocations.length) (ho : d.offset = b.trampolineStart s) :
    d.target = .constant (BitVec.ofNat 16 (b.constants.length + i)) := by
  rw [drop_delayedEntries, mem_trampolineEntries_iff] at hd
  obtain ⟨j, r, -, -, rfl⟩ := hd
  rw [trampolineStart_getElem hs] at ho
  have hmul : j * b.longJumpCode.length = i * b.longJumpCode.length :=
    Nat.add_left_cancel (show b.code.length + _ = b.code.length + _ from ho)
  rw [Nat.eq_of_mul_eq_mul_right hlen hmul]
  rfl

/-- The fields of tidy calls do not reach the pool. -/
theorem poolUntouched_of_inCode (hin : InCode b)
    (hlong : b.runtimeTrampolineSymbols ≠ [] → FieldsInside b.longJumpCode b.longJumpEntries) :
    b.PoolUntouched := by
  have hpad := b.codeEnd_le_poolBase
  intro d hd
  left
  exact Nat.le_trans (fieldEnd_le_codeEnd hin hlong hd) hpad

/-! ## Alignment inside the block -/

section Alignment

/-- The block has no pool slot. -/
def Poolless (b : PatchBlock MAX_REGS) : Prop :=
  b.constants = [] ∧ b.runtimeTrampolineSymbols = []

instance (b : PatchBlock MAX_REGS) : Decidable b.Poolless := inferInstanceAs (Decidable (_ ∧ _))

/-- The code bytes that no padding follows. -/
def unpadded (b : PatchBlock MAX_REGS) : Nat := if b.Poolless then b.code.length else 0

variable {b : PatchBlock MAX_REGS}

theorem poolless_iff : b.Poolless ↔ b.poolValues = [] := by
  rw [Poolless, poolValues, List.append_eq_nil_iff, List.map_eq_nil_iff]

/-- A pool starts at a multiple of `usizeSize` inside its block. -/
theorem poolBase_mod (h : ¬ b.Poolless) : b.poolBase % usizeSize = 0 := by
  have hpool : (b.constants.isEmpty && b.runtimeTrampolineSymbols.isEmpty) = false := by
    rw [← Bool.not_eq_true, Bool.and_eq_true, List.isEmpty_iff, List.isEmpty_iff]
    exact h
  rw [poolBase, constantBase, hpool, if_neg Bool.false_ne_true]
  exact nextMultipleOf_mod _ (by decide)

/-- **What a block leaves behind**: nothing when it has a pool, else the rest of its code. -/
theorem extent_mod : b.extent % usizeSize = b.unpadded % usizeSize := by
  rw [extent, Nat.add_mul_mod_self_right, unpadded]
  split
  · next h =>
      obtain ⟨hc, hs⟩ := h
      rw [poolBase, constantBase, codeEnd, hc, hs, List.length_nil, Nat.zero_mul, Nat.add_zero]
      rfl
  · next h => rw [poolBase_mod h, Nat.zero_mod]

/-- The address the code reads a slot from is where its write goes. -/
theorem slotAddress_eq (base : Usize) (off n : Nat) (v : Usize) :
    b.slotAddress base off n = base + BitVec.ofNat 64 (b.slotWrite off n v).pos := by
  rw [slotAddress, slotWrite, slotStart, Nat.mul_comm usizeSize, BitVec.ofNat_add, BitVec.ofNat_add]
  ac_rfl

/-- A slot is as far off as the start of its block. -/
theorem slotAddress_mod (h : ¬ b.Poolless) {base : Usize} (hbase : base.toNat % usizeSize = 0)
    (off n : Nat) : (b.slotAddress base off n).toNat % usizeSize = off % usizeSize := by
  have hpool := poolBase_mod h
  simp only [usizeSize] at hbase hpool ⊢
  simp only [slotAddress, usizeSize, BitVec.toNat_add, BitVec.toNat_ofNat]
  omega

end Alignment

/-! ## Blocks that can be finalized -/

section Progress

variable {b : PatchBlock MAX_REGS}

theorem placeConstants_of_fits {start : Nat} {values : List Usize} {map : LoggedBuffer}
    (h : start + usizeSize * values.length ≤ map.bytes.length) :
    ∃ map', placeConstants start values map = some map' ∧
      map'.bytes.length = map.bytes.length := by
  induction values generalizing start map with
  | nil => exact ⟨map, rfl, rfl⟩
  | cons v rest ih =>
      have hlen : (neBytes v).length = usizeSize := leBytes_length _ _
      rw [List.length_cons, Nat.mul_add, Nat.mul_one] at h
      obtain ⟨m, hm⟩ := @LoggedBuffer.copyFromSlice_of_fits map start (neBytes v) (by omega)
      have hsame := applyWrites_length (LoggedBuffer.extends_of_copyFromSlice hm).bytes
      obtain ⟨map', hmap', hlen'⟩ := @ih (start + usizeSize) m (by omega)
      exact ⟨map', by rw [placeConstants, hm, Option.bind_some, hmap'], hlen'.trans hsame⟩

/-- A field that `apply_raw` can write. -/
def Writable (r : Relocation) : Prop :=
  r.fieldLen ≤ 8 ∧ (r.encoding = .generic ∨ r.encoding = .x86Signed)

theorem apply_of_fits {d : DelayedRelocation} {map : LoggedBuffer} {value : Usize}
    (hd : Writable d.relocation) (hfit : off + d.fieldEnd ≤ map.bytes.length) :
    ∃ map', d.apply map off value = some map' ∧ map'.bytes.length = map.bytes.length := by
  have hstop : off + d.offset + d.relocation.offset.toNat +
      (d.relocation.fieldBytes value).length ≤ map.bytes.length := by
    rw [Relocation.fieldBytes_length]
    simp only [DelayedRelocation.fieldEnd, DelayedRelocation.location] at hfit
    omega
  obtain ⟨map', hmap'⟩ := LoggedBuffer.copyFromSlice_of_fits hstop
  refine ⟨map', ?_, applyWrites_length (LoggedBuffer.extends_of_copyFromSlice hmap').bytes⟩
  unfold DelayedRelocation.apply Relocation.applyRaw
  rcases hd with ⟨hlen, henc | henc⟩
  · rw [henc]
    exact (if_pos hlen).trans hmap'
  · rw [henc]
    exact (if_pos hlen).trans hmap'

theorem applyRelocations_of_constants {blockBase : Usize} {constantBase : Nat}
    {addresses : List Usize} {relocs : List DelayedRelocation} {map : LoggedBuffer}
    (hconst : ∀ d ∈ relocs, isConstant d = true)
    (hfield : ∀ d ∈ relocs, Writable d.relocation ∧ off + d.fieldEnd ≤ map.bytes.length) :
    ∃ map', applyRelocations false base off blockBase constantBase addresses blocks relocs map =
      some (.ok (), map') := by
  induction relocs generalizing map with
  | nil => exact ⟨map, rfl⟩
  | cons d rest ih =>
      obtain ⟨n, hn⟩ : ∃ n, d.target = .constant n := by
        have hd := hconst d List.mem_cons_self
        rw [isConstant] at hd
        split at hd
        · next n hn => exact ⟨n, hn⟩
        · cases hd
      obtain ⟨hwritable, hfit⟩ := hfield d List.mem_cons_self
      -- without overflow checks the address and the place wrap
      obtain ⟨v, hv⟩ : ∃ v, d.resolve false blockBase (blockBase + BitVec.ofNat 64 constantBase +
          BitVec.ofNat 64 (n.toNat * usizeSize)) = some v := by
        rw [DelayedRelocation.resolve]
        split
        · exact ⟨_, rfl⟩
        · exact ⟨_, rfl⟩
      obtain ⟨m, hm, hlen⟩ := @apply_of_fits off d map v hwritable hfit
      obtain ⟨map', hmap'⟩ := @ih m (fun d' hd' => hconst d' (List.mem_cons_of_mem _ hd'))
        (fun d' hd' => by
          rw [hlen]
          exact hfield d' (List.mem_cons_of_mem _ hd'))
      refine ⟨map', ?_⟩
      simp only [applyRelocations, targetAddress, hn, plainAdd, Bool.false_and, Bool.false_eq_true,
        if_false, Option.bind_eq_bind, Option.bind_some, Option.pure_def, hv, hm, hmap']

/-- **A block whose delayed entries are wide holes** can be finalized in every map that is long
enough. -/
theorem finalizeInto_of_constants {map : LoggedBuffer} (hended : b.ended = true)
    (hnext : b.nextRelocations = []) (hconst : ∀ d ∈ b.relocations, isConstant d = true)
    (hfield : ∀ d ∈ b.relocations, Writable d.relocation ∧ d.fieldEnd ≤ b.code.length)
    (hmap : off + b.extent ≤ map.bytes.length) :
    ∃ map', b.finalizeInto false base off map blocks = some (.ok (), map') := by
  have hsymbols : b.runtimeTrampolineSymbols = [] := by
    rw [List.eq_nil_iff_forall_not_mem]
    intro s hs
    obtain ⟨d, hd, ht⟩ := mem_runtimeTrampolineSymbols.1 hs
    have hc := hconst d hd
    rw [isConstant, ht] at hc
    cases hc
  have hvalues : b.poolValues = b.constants := by rw [poolValues, hsymbols, List.map_nil, List.append_nil]
  have hend : b.codeEnd = b.code.length := by
    rw [codeEnd, hsymbols, List.length_nil, Nat.zero_mul, Nat.add_zero]
  -- without runtime symbols the pool holds the constants alone and no long jump is copied
  have hpad := b.codeEnd_le_poolBase
  have hpool : b.constantBase b.code.length = b.poolBase := by rw [poolBase, hend]
  rw [extent, hvalues] at hmap
  obtain ⟨m₁, hm₁⟩ := @LoggedBuffer.copyFromSlice_of_fits map off b.code (by omega)
  have hlen₁ := applyWrites_length (LoggedBuffer.extends_of_copyFromSlice hm₁).bytes
  obtain ⟨m₂, hm₂, hlen₂⟩ := @placeConstants_of_fits (off + b.poolBase) b.constants m₁
    (by rw [Nat.mul_comm]; omega)
  obtain ⟨map', hmap'⟩ := @applyRelocations_of_constants base off blocks (base + BitVec.ofNat 64 off)
    b.poolBase (List.replicate b.library.rtSymbols.length 0) b.relocations m₂ hconst (by
      intro d hd
      obtain ⟨hw, hin⟩ := hfield d hd
      exact ⟨hw, by omega⟩)
  refine ⟨map', ?_⟩
  simp only [finalizeInto, hended, hnext, hsymbols, finalizePool, hpool, plainAdd, Bool.false_and,
    Bool.false_eq_true, not_true_eq_false, if_false, List.isEmpty_nil, if_true,
    Option.bind_eq_bind, Option.bind_some, hm₁, hm₂, List.mapM_nil, Option.pure_def, placeConstants,
    List.append_nil, hmap']

end Progress

end PatchBlock

end Patchouly.Patch
