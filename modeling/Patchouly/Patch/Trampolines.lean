import Patchouly.Patch.Bytes
import Patchouly.Patch.Narrow
import Patchouly.Patch.Pool
import Mathlib.Data.Nat.ModEq

/-!
# Trampolines

`finalizeInto` numbers the runtime symbols in the order of their first use, places one copy of the
long jump for each of them behind the code, and one slot with the symbol's address behind the
constants in the pool. For pools that 16-bit indices can count the three numberings agree; `routed_iff`
says that the finalized bytes show it exactly when no delayed field changes what was placed.

The copies read the pool whichever variant of the long jump was selected. `variant_followed` says when
this is what the selected variant needs.
-/

set_option autoImplicit false

namespace Patchouly.Patch

open Patchouly.Lib Patchouly.Core

theorem trampolineWrites_getElem? (start : Nat) (code : List U8) (symbols : List U16) (i : Nat) :
    (trampolineWrites start code symbols)[i]? =
      symbols[i]?.map fun _ => ⟨start + i * code.length, code⟩ := by
  induction symbols generalizing start i with
  | nil => rfl
  | cons s rest ih =>
      cases i with
      | zero =>
          rw [Nat.zero_mul]
          rfl
      | succ i =>
          rw [trampolineWrites, List.getElem?_cons_succ, List.getElem?_cons_succ, ih, Nat.succ_mul,
            Nat.add_assoc, Nat.add_comm code.length]

namespace PatchBlock

variable {MAX_REGS : Nat}

section Routing

variable (b : PatchBlock MAX_REGS) (base : Usize) (off : Nat) (blocks : ProgramBlocks)

/-- The copy of the long jump for a symbol. -/
def copyWrite (s : U16) : Write := ⟨off + b.trampolineStart s, b.longJumpCode⟩

/-- The number of a symbol's slot in the pool. -/
def symbolSlot (s : U16) : Nat := b.constants.length + b.runtimeTrampolineSymbols.idxOf s

/-- The delayed entry that was made for a field of a symbol's trampoline. -/
def trampolineEntry (s : U16) (r : Relocation) : DelayedRelocation :=
  .constant (b.trampolineStart s) r (BitVec.ofNat 16 (b.symbolSlot s))

/-- The slot that the 16-bit index of a symbol reads. -/
def indexedSlot (s : U16) : Nat := b.symbolSlot s % 2 ^ 16

/-- A position of the long jump that none of its `Hole(0)` fields has. -/
def OutsideHoles (i : Nat) : Prop :=
  ∀ r ∈ b.longJumpEntries, ¬ (r.offset.toNat ≤ i ∧ i < r.offset.toNat + r.fieldLen)

/-- What a finalized block has for its runtime symbols: one copy of the long jump for each of them, the
copies behind the code one after the other, the calls of a symbol patched with the start of its copy, the
`Hole(0)` fields of the copy with the symbol's slot, and its address in this slot. -/
structure Routed (map map' : LoggedBuffer) : Prop where
  nodup : b.runtimeTrampolineSymbols.Nodup
  symbols : ∀ s, s ∈ b.runtimeTrampolineSymbols ↔ ∃ d ∈ b.relocations, d.target = .runtime s
  stencil : ∀ s ∈ b.runtimeTrampolineSymbols, ∃ lj, b.longJumpStencil = some (some lj) ∧
    lj.code b.library.code = some b.longJumpCode
  copies : map'.log = map.log ++ (⟨off, b.code⟩ :: b.runtimeTrampolineSymbols.map (b.copyWrite off) ++
    poolWrites (off + b.poolBase) b.poolValues ++
      b.delayedEntries.map (b.entryWrite base off blocks))
  consecutive : Tiles (off + b.code.length)
    ((b.runtimeTrampolineSymbols.map (b.copyWrite off)).map writeRegion) (off + b.codeEnd)
  disjoint : ∀ s ∈ b.runtimeTrampolineSymbols, ∀ t ∈ b.runtimeTrampolineSymbols, s ≠ t →
    (b.copyWrite off s).stop ≤ (b.copyWrite off t).pos ∨
      (b.copyWrite off t).stop ≤ (b.copyWrite off s).pos
  code : ∀ s ∈ b.runtimeTrampolineSymbols, ∀ i < b.longJumpCode.length, b.OutsideHoles i →
    map'.bytes[off + (b.trampolineStart s + i)]? = b.longJumpCode[i]?
  calls : ∀ d ∈ b.relocations, ∀ s, d.target = .runtime s →
    readBytes map'.bytes (off + d.location) d.relocation.fieldLen = (fieldFor base off d
      (base + BitVec.ofNat 64 off + BitVec.ofNat 64 (b.trampolineStart s))).bytes
  holes : ∀ s ∈ b.runtimeTrampolineSymbols, ∀ r ∈ b.longJumpEntries,
    readBytes map'.bytes (off + (b.trampolineStart s + r.offset.toNat)) r.fieldLen =
      (fieldFor base off (b.trampolineEntry s r) (b.slotAddress base off (b.symbolSlot s))).bytes
  slots : ∀ s ∈ b.runtimeTrampolineSymbols, ∀ address ∈ b.library.rtSymbols[s.toNat]?,
    readBytes map'.bytes (off + b.slotStart (b.symbolSlot s)) usizeSize = neBytes address

/-- The delayed fields leave a symbol's copy of the long jump, its `Hole(0)` fields apart, or write the
same bytes. -/
def CopyKept (s : U16) : Prop :=
  ∀ i < b.longJumpCode.length, b.OutsideHoles i → ∀ v,
    lastByte (b.delayedEntries.map (b.entryWrite base off blocks))
      (off + (b.trampolineStart s + i)) = some v → b.longJumpCode[i]? = some v

/-- No delayed field changes what was placed or patched for a runtime symbol. -/
structure RoutesKept : Prop where
  code : ∀ s ∈ b.runtimeTrampolineSymbols, b.CopyKept base off blocks s
  calls : ∀ d ∈ b.relocations, ∀ s, d.target = .runtime s → b.FieldKept base off blocks d
  holes : ∀ s ∈ b.runtimeTrampolineSymbols, ∀ r ∈ b.longJumpEntries,
    b.FieldKept base off blocks (b.trampolineEntry s r)
  slots : ∀ s ∈ b.runtimeTrampolineSymbols, ∀ address ∈ b.library.rtSymbols[s.toNat]?,
    b.SlotKept base off blocks (b.symbolSlot s) address

theorem trampolineStart_eq (s : U16) : b.trampolineStart s =
    b.code.length + b.runtimeTrampolineSymbols.idxOf s * b.longJumpCode.length := rfl

/-- One copy of the long jump for each symbol. -/
theorem trampolineWrites_eq_map :
    trampolineWrites (off + b.code.length) b.longJumpCode b.runtimeTrampolineSymbols =
      b.runtimeTrampolineSymbols.map (b.copyWrite off) := by
  apply List.ext_getElem?
  intro i
  rw [trampolineWrites_getElem?, List.getElem?_map]
  cases hs : b.runtimeTrampolineSymbols[i]? with
  | none => rfl
  | some s => rw [Option.map_some, Option.map_some, copyWrite, trampolineStart_getElem hs, Nat.add_assoc]

theorem layoutWrites_eq : b.layoutWrites off =
    ⟨off, b.code⟩ :: b.runtimeTrampolineSymbols.map (b.copyWrite off) ++
      poolWrites (off + b.poolBase) b.poolValues := by
  rw [layoutWrites, trampolineWrites_eq_map]
  rfl

theorem copyWrite_mem {s : U16} (hs : s ∈ b.runtimeTrampolineSymbols) :
    b.copyWrite off s ∈ b.layoutWrites off := by
  rw [layoutWrites_eq]
  exact List.mem_append_left _ (List.mem_cons_of_mem _ (List.mem_map_of_mem hs))

theorem trampolineEntry_drop {s : U16} (hs : s ∈ b.runtimeTrampolineSymbols) {r : Relocation}
    (hr : r ∈ b.longJumpEntries) :
    b.trampolineEntry s r ∈ b.delayedEntries.drop b.relocations.length := by
  rw [drop_delayedEntries, mem_trampolineEntries_iff]
  exact ⟨_, r, List.idxOf_lt_length_of_mem hs, hr, rfl⟩

theorem trampolineEntry_mem {s : U16} (hs : s ∈ b.runtimeTrampolineSymbols) {r : Relocation}
    (hr : r ∈ b.longJumpEntries) : b.trampolineEntry s r ∈ b.delayedEntries :=
  List.mem_of_mem_drop (b.trampolineEntry_drop hs hr)

/-- The copies follow each other from the end of the code on. -/
theorem tiles_copies : Tiles (off + b.code.length)
    ((b.runtimeTrampolineSymbols.map (b.copyWrite off)).map writeRegion) (off + b.codeEnd) := by
  have htiles := tiles_evenRegions b.longJumpCode.length (off + b.code.length)
    b.runtimeTrampolineSymbols.length
  rw [Nat.add_assoc] at htiles
  rw [← trampolineWrites_eq_map, trampolineWrites_regions]
  exact htiles

end Routing

variable {checks : Bool} {b : PatchBlock MAX_REGS} {base : Usize} {off : Nat}
  {blocks : ProgramBlocks} {map map' : LoggedBuffer}

/-- Different symbols have different places. -/
theorem idxOf_inj {s t : U16} (hs : s ∈ b.runtimeTrampolineSymbols)
    (h : b.runtimeTrampolineSymbols.idxOf s = b.runtimeTrampolineSymbols.idxOf t) : s = t :=
  (List.idxOf_inj hs).1 h

theorem copies_disjoint {s t : U16} (hs : s ∈ b.runtimeTrampolineSymbols) (hne : s ≠ t) :
    (b.copyWrite off s).stop ≤ (b.copyWrite off t).pos ∨
      (b.copyWrite off t).stop ≤ (b.copyWrite off s).pos := by
  have hidx : b.runtimeTrampolineSymbols.idxOf s ≠ b.runtimeTrampolineSymbols.idxOf t :=
    fun h => hne (idxOf_inj hs h)
  -- the earlier copy ends where the next one starts
  have hstep : ∀ i j : Nat, i < j →
      i * b.longJumpCode.length + b.longJumpCode.length ≤ j * b.longJumpCode.length := by
    intro i j hij
    rw [← Nat.succ_mul]
    exact Nat.mul_le_mul_right _ hij
  simp only [copyWrite, Write.stop, trampolineStart_eq]
  rcases Nat.lt_or_gt_of_ne hidx with hlt | hlt
  · left
    have := hstep _ _ hlt
    omega
  · right
    have := hstep _ _ hlt
    omega

/-- The slot of a symbol has its address. -/
theorem poolValues_symbol {s : U16} (hs : s ∈ b.runtimeTrampolineSymbols) {address : Usize}
    (haddress : b.library.rtSymbols[s.toNat]? = some address) :
    b.poolValues[b.symbolSlot s]? = some address := by
  rw [poolValues, symbolSlot, List.getElem?_append_right (Nat.le_add_right _ _),
    Nat.add_sub_cancel_left, List.getElem?_map, List.getElem?_idxOf hs, Option.map_some, haddress]
  rfl

/-- The field of a trampoline is patched with the address of the slot that its index reads. -/
theorem entryWrite_trampoline (s : U16) (r : Relocation) :
    b.entryWrite base off blocks (b.trampolineEntry s r) =
      fieldFor base off (b.trampolineEntry s r) (b.slotAddress base off (b.indexedSlot s)) := by
  have hindex : (BitVec.ofNat 16 (b.symbolSlot s)).toNat = b.indexedSlot s := BitVec.toNat_ofNat _ _
  simp only [entryWrite, trampolineEntry, DelayedRelocation.constant, entryTarget, hindex]
  rfl

/-- A call is patched with the start of its symbol's copy. -/
theorem entryWrite_call {d : DelayedRelocation} {s : U16} (ht : d.target = .runtime s) :
    b.entryWrite base off blocks d = fieldFor base off d
      (base + BitVec.ofNat 64 off + BitVec.ofNat 64 (b.trampolineStart s)) := by
  rw [entryWrite, ht]
  rfl

/-- **A byte of a copy** outside the holes is that of the long jump exactly when no delayed field changes
it. -/
theorem copy_byte_iff (h : b.finalizeInto checks base off map blocks = some (.ok (), map')) {s : U16}
    (hs : s ∈ b.runtimeTrampolineSymbols) {i : Nat} (hi : i < b.longJumpCode.length) :
    map'.bytes[off + (b.trampolineStart s + i)]? = b.longJumpCode[i]? ↔
      ∀ v, lastByte (b.delayedEntries.map (b.entryWrite base off blocks))
        (off + (b.trampolineStart s + i)) = some v → b.longJumpCode[i]? = some v := by
  have hcov : (b.copyWrite off s).Covers (off + (b.trampolineStart s + i)) := by
    constructor
    · simp only [copyWrite]
      omega
    · simp only [copyWrite, Write.stop]
      omega
  have hplaced : (b.copyWrite off s).byteAt (off + (b.trampolineStart s + i)) = b.longJumpCode[i]? := by
    rw [Write.byteAt_of_covers hcov, copyWrite]
    congr 1
    simp only
    omega
  rw [byte_of_layout h (b.copyWrite_mem off hs) hcov, hplaced]
  cases lastByte (b.delayedEntries.map (b.entryWrite base off blocks))
      (off + (b.trampolineStart s + i)) with
  | none => simp
  | some v => simp [eq_comm]

/-- **Runtime calls**: in a pool that 16-bit indices can count, the finalized block routes every call to
the copy of its own symbol, and the copy to its own slot, exactly when no delayed field changes what was
placed or patched for the symbols. -/
theorem routed_iff
    (h : b.finalizeInto checks base off map blocks = some (.ok (), map'))
    (hsmall : b.constants.length + b.runtimeTrampolineSymbols.length ≤ 65536) :
    b.Routed base off blocks map map' ↔ b.RoutesKept base off blocks := by
  obtain ⟨-, -, hlong, hext, -⟩ := finalizeInto_ok h
  have hhole : ∀ s ∈ b.runtimeTrampolineSymbols, ∀ r, b.entryWrite base off blocks
      (b.trampolineEntry s r) = fieldFor base off (b.trampolineEntry s r)
        (b.slotAddress base off (b.symbolSlot s)) := by
    intro s hs r
    have hlt := List.idxOf_lt_length_of_mem hs
    have hindex : b.indexedSlot s = b.symbolSlot s := by
      apply Nat.mod_eq_of_lt
      rw [symbolSlot]
      omega
    rw [entryWrite_trampoline, hindex]
  constructor
  · intro hr
    constructor
    case code => exact fun s hs i hi hout => (copy_byte_iff h hs hi).1 (hr.code s hs i hi hout)
    case calls =>
      intro d hd s ht
      apply (readBytes_field_iff h (List.mem_append_left _ hd)).1
      rw [entryWrite_call ht]
      exact hr.calls d hd s ht
    case holes =>
      intro s hs r hmem
      apply (readBytes_field_iff h (b.trampolineEntry_mem hs hmem)).1
      rw [hhole s hs r]
      exact hr.holes s hs r hmem
    case slots =>
      intro s hs address haddress
      exact (readBytes_slot_iff h (poolValues_symbol hs haddress)).1 (hr.slots s hs address haddress)
  · intro hk
    constructor
    case nodup => exact b.runtimeTrampolineSymbols_nodup
    case symbols => exact fun s => mem_runtimeTrampolineSymbols
    case stencil => exact fun s hs => hlong (List.ne_nil_of_mem hs)
    case copies => rw [hext.log, finalWrites, layoutWrites_eq]
    case consecutive => exact b.tiles_copies off
    case disjoint => exact fun s hs t _ hne => copies_disjoint hs hne
    case code => exact fun s hs i hi hout => (copy_byte_iff h hs hi).2 (hk.code s hs i hi hout)
    case calls =>
      intro d hd s ht
      rw [← entryWrite_call ht]
      exact (readBytes_field_iff h (List.mem_append_left _ hd)).2 (hk.calls d hd s ht)
    case holes =>
      intro s hs r hmem
      rw [← hhole s hs r]
      exact (readBytes_field_iff h (b.trampolineEntry_mem hs hmem)).2 (hk.holes s hs r hmem)
    case slots =>
      intro s hs address haddress
      exact (readBytes_slot_iff h (poolValues_symbol hs haddress)).2 (hk.slots s hs address haddress)

/-- Fields that lie inside their own code and do not overlap change nothing that was placed. -/
theorem routesKept_of_inCode (hin : InCode b) (hlong : FieldsInside b.longJumpCode b.longJumpEntries)
    (hapart : b.delayedEntries.Pairwise FieldsApart) : b.RoutesKept base off blocks := by
  have hfield : ∀ d ∈ b.delayedEntries, b.FieldKept base off blocks d := by
    intro d hd
    obtain ⟨pre, post, heq⟩ := List.append_of_mem hd
    refine ⟨pre, post, heq, fun x hx v hv => ?_⟩
    have hnone : lastByte (post.map (b.entryWrite base off blocks)) x = none := by
      apply lastByte_eq_none
      intro w hw hc
      obtain ⟨d', hd', rfl⟩ := List.mem_map.1 hw
      rw [heq, List.pairwise_append, List.pairwise_cons] at hapart
      have happ := hapart.2.1.1 d' hd'
      rw [entryWrite, DelayedRelocation.fieldWrite_covers] at hx hc
      rw [FieldsApart] at happ
      omega
    rw [hnone] at hv
    cases hv
  constructor
  case calls => exact fun d hd s _ => hfield d (List.mem_append_left _ hd)
  case holes => exact fun s hs r hr => hfield _ (b.trampolineEntry_mem hs hr)
  case slots =>
    intro s hs address haddress
    exact slotKept_of_poolUntouched (poolUntouched_of_inCode hin fun _ => hlong)
      (poolValues_symbol hs haddress)
  case code =>
    intro s hs i hi hout v hv
    have hnone : lastByte (b.delayedEntries.map (b.entryWrite base off blocks))
        (off + (b.trampolineStart s + i)) = none := by
      apply lastByte_eq_none
      intro w hw hc
      obtain ⟨d, hd, rfl⟩ := List.mem_map.1 hw
      rw [entryWrite, DelayedRelocation.fieldWrite_covers] at hc
      rcases List.mem_append.1 hd with hd | hd
      · -- a field of the code
        have hend := hin d hd
        rw [trampolineStart] at hc
        omega
      · -- a field of a copy: of this one, or of another one that lies apart
        obtain ⟨j, r, hj, hr, rfl⟩ := mem_trampolineEntries_iff.1 hd
        have hfit := hlong r hr
        have hstart := trampolineStart_getElem (List.getElem?_eq_getElem hj)
        simp only [DelayedRelocation.fieldEnd, DelayedRelocation.location,
          DelayedRelocation.constant] at hc
        by_cases hsame : s = b.runtimeTrampolineSymbols[j]
        · rw [hsame, hstart] at hc
          exact hout r hr ⟨by omega, by omega⟩
        · have happ := @copies_disjoint _ b 0 _ _ hs hsame
          simp only [copyWrite, Write.stop, hstart] at happ
          omega
    rw [hnone] at hv
    cases hv

end PatchBlock

/-! ## A block with a call -/

/-- A call of the runtime function and a return. -/
def calledBlock (library : StencilLibrary 1) : Option (PatchBlock 1) :=
  ((PatchBlock.new library).call true (.emit callFamily nil nil nil)).bind fun p =>
    (p.2.call true (.ret (retFamily : StencilFamily 0 0 1 0 0) nil nil)).map (·.2)

/-- The block, finalized at a base in a map of 24 bytes. -/
def linkCalled (library : StencilLibrary 1) (base : Usize) :
    Option (PatchBlock 1 × Option Unit × LoggedBuffer) :=
  (calledBlock library).bind fun b =>
    (b.finalizeInto true base 0 ⟨List.replicate 24 0, []⟩ ⟨[]⟩).map fun p => (b, p.1.toOption, p.2)

theorem linkCalled_eq {library : StencilLibrary 1} {base : Usize} {b : PatchBlock 1}
    {map' : LoggedBuffer} (h : linkCalled library base = some (b, some (), map')) :
    calledBlock library = some b ∧
      b.finalizeInto true base 0 ⟨List.replicate 24 0, []⟩ ⟨[]⟩ = some (.ok (), map') := by
  obtain ⟨b', hb, h1⟩ := Option.bind_eq_some_iff.1 h
  obtain ⟨⟨out, map''⟩, hfin, hp⟩ := Option.map_eq_some_iff.1 h1
  simp only [Prod.mk.injEq] at hp
  obtain ⟨rfl, hout, rfl⟩ := hp
  cases out with
  | error e => cases hout
  | ok u => exact ⟨hb, hfin⟩

theorem routed_iff_called : ∃ b map', calledBlock sampleLibrary = some b ∧
    map'.bytes = [0xE8, 1, 0, 0, 0, 0xC3, 0xFF, 0x25, 4, 0, 0, 0, 0, 0, 0, 0, 0x9A, 0x78, 0x56, 0x34,
      0x12, 0, 0, 0] ∧
    (b.Routed 0x1000 0 ⟨[]⟩ ⟨List.replicate 24 0, []⟩ map' ↔ b.RoutesKept 0x1000 0 ⟨[]⟩) := by
  have hrun : (linkCalled sampleLibrary 0x1000).map (fun p => (p.2.1, p.2.2.bytes,
      decide (p.1.constants.length + p.1.runtimeTrampolineSymbols.length ≤ 65536))) = some (some (),
        [0xE8, 1, 0, 0, 0, 0xC3, 0xFF, 0x25, 4, 0, 0, 0, 0, 0, 0, 0, 0x9A, 0x78, 0x56, 0x34, 0x12, 0, 0,
          0], true) := by
    decide +kernel
  obtain ⟨⟨b, res, map'⟩, hlink, hstate⟩ := Option.map_eq_some_iff.1 hrun
  simp only [Prod.mk.injEq, decide_eq_true_eq] at hstate
  obtain ⟨rfl, hbytes, hsmall⟩ := hstate
  obtain ⟨hb, hfin⟩ := linkCalled_eq hlink
  exact ⟨b, map', hb, hbytes, PatchBlock.routed_iff hfin hsmall⟩

/-- An absolute 32-bit field at offset 11 for `Target(0)`, far behind the code of its stencil. -/
def strayField : Relocation := ⟨0x000020002001000B⟩

def strayFamily {IN OUT JUMPS : Nat} : StencilFamily IN OUT 1 0 JUMPS :=
  ⟨[strayField, .new], [⟨10, 1, 0⟩]⟩

/-- A call of the runtime function, and a jump to block 0 through the stray field. -/
def strayBlock : Option (PatchBlock 1) :=
  ((PatchBlock.new sampleLibrary).call true (.emit callFamily nil nil nil)).bind fun p =>
    (p.2.call true (.endBranch (strayFamily : StencilFamily 0 0 1 0 1) nil nil nil
      (.singleton (.target 0)))).map (·.2)

/-- The stray field lies over the slot of the runtime function: the low half of the address in there is
replaced by that of the block. -/
theorem not_routed : ¬ ∀ (b : PatchBlock 1) (map map' : LoggedBuffer), strayBlock = some b →
    b.finalizeInto true 0x1000 0 map ⟨[0]⟩ = some (.ok (), map') →
      b.constants.length + b.runtimeTrampolineSymbols.length ≤ 65536 →
        b.Routed 0x1000 0 ⟨[0]⟩ map map' := by
  intro hall
  have hrun : (strayBlock.bind fun b =>
      (b.finalizeInto true 0x1000 0 ⟨List.replicate 24 0, []⟩ ⟨[0]⟩).map fun p =>
        (b, p.1.toOption, p.2)).map (fun p => (p.2.1, p.2.2.bytes,
          decide (p.1.runtimeTrampolineSymbols = [0] ∧ p.1.constants = [] ∧ p.1.slotStart 0 = 16 ∧
            p.1.library.rtSymbols = [0x123456789A]))) = some (some (),
        [0xE8, 1, 0, 0, 0, 0xC3, 0xFF, 0x25, 4, 0, 0, 0, 0, 0, 0, 0, 0, 0x10, 0, 0, 0x12, 0, 0, 0],
          true) := by
    decide +kernel
  obtain ⟨⟨b, res, map'⟩, hlink, hstate⟩ := Option.map_eq_some_iff.1 hrun
  simp only [Prod.mk.injEq, decide_eq_true_eq] at hstate
  obtain ⟨rfl, hbytes, hsymbols, hconstants, hslot, hrt⟩ := hstate
  obtain ⟨b', hb, h1⟩ := Option.bind_eq_some_iff.1 hlink
  obtain ⟨⟨out, map''⟩, hfin, hp⟩ := Option.map_eq_some_iff.1 h1
  simp only [Prod.mk.injEq] at hp
  obtain ⟨rfl, hout, rfl⟩ := hp
  cases out with
  | error e => cases hout
  | ok u =>
      have hrouted := hall b' _ map'' hb hfin (by rw [hsymbols, hconstants]; decide)
      have hread := hrouted.slots 0 (by rw [hsymbols]; exact List.mem_singleton_self _) 0x123456789A
        (by rw [hrt]; rfl)
      rw [PatchBlock.symbolSlot, hconstants, hsymbols] at hread
      rw [show ([] : List Usize).length + List.idxOf (0 : U16) [0] = 0 from rfl, hslot, hbytes] at hread
      revert hread
      decide

namespace PatchBlock

variable {MAX_REGS : Nat} {checks : Bool} {b : PatchBlock MAX_REGS} {base : Usize} {off : Nat}
  {blocks : ProgramBlocks} {map map' : LoggedBuffer}

/-! ## The selected variant -/

section Variant

variable (b base off blocks)

/-- The finalized field of a symbol's trampoline is what the selected variant of the long jump needs: for
the wide one it has the address of the symbol's slot, and the slot has the symbol's address; for the narrow
one it has the symbol's address itself. -/
def FollowsVariant (map' : LoggedBuffer) (wide : Bool) (s : U16) (r : Relocation) : Prop :=
  ∃ d rt, d ∈ b.delayedEntries.drop b.relocations.length ∧ d.offset = b.trampolineStart s ∧
    d.relocation = r ∧ b.library.rtSymbols[s.toNat]? = some rt ∧
    readBytes map'.bytes (off + d.location) r.fieldLen = (b.entryWrite base off blocks d).bytes ∧
    if wide then ∃ n : U16, d.target = .constant n ∧ n.toNat = b.symbolSlot s ∧
      b.entryWrite base off blocks d = fieldFor base off d (b.slotAddress base off n.toNat) ∧
        readBytes map'.bytes (off + b.slotStart n.toNat) usizeSize = neBytes rt
    else b.entryWrite base off blocks d = fieldFor base off d rt

/-- When the variant is followed: no later field changes the field; the wide one has an index that counts
up to its slot, and no delayed field changes the slot; for the narrow one, the slot happens to stand at
the symbol's address, as far as the bits of the field go. -/
def VariantFits (wide : Bool) (s : U16) (r : Relocation) : Prop :=
  b.FieldKept base off blocks (b.trampolineEntry s r) ∧
    if wide then b.symbolSlot s < 2 ^ 16 ∧
      ∀ rt ∈ b.library.rtSymbols[s.toNat]?, b.SlotKept base off blocks (b.symbolSlot s) rt
    else ∀ rt ∈ b.library.rtSymbols[s.toNat]?,
      (base.toNat + off + b.slotStart (b.indexedSlot s)) % 2 ^ (8 * r.fieldLen) =
        rt.toNat % 2 ^ (8 * r.fieldLen)

end Variant

/-- The only entry for a field of a symbol's trampoline. -/
theorem eq_trampolineEntry (hlen : 0 < b.longJumpCode.length) {s : U16}
    (hs : s ∈ b.runtimeTrampolineSymbols) {d : DelayedRelocation}
    (hd : d ∈ b.delayedEntries.drop b.relocations.length) (ho : d.offset = b.trampolineStart s)
    {r : Relocation} (hr : d.relocation = r) : d = b.trampolineEntry s r := by
  have ht := target_of_trampoline hlen (List.getElem?_idxOf hs) hd ho
  obtain ⟨o, r', t⟩ := d
  simp only at ho ht hr
  rw [ho, ht, hr]
  rfl

/-- A field of the long jump's narrow variant is absolute. -/
theorem absolute_of_narrow {stencil : Stencil}
    (hsel : b.library.longJump.select #v[] #v[] #v[BitVec.allOnes 64] = some (some ⟨false, stencil⟩))
    {r : Relocation} (hr : r ∈ b.longJumpEntries) : r.relative = false := by
  have hlong : b.longJumpStencil = some (some stencil) :=
    congrArg (Option.map (Option.map SelectedStencil.stencil)) hsel
  have hlj : b.longJumpOrEmpty = stencil := by
    rw [longJumpOrEmpty, hlong]
    rfl
  rw [longJumpEntries, holeZeroEntries, hlj] at hr
  obtain ⟨hr, hhole⟩ := List.mem_filter.1 hr
  cases hrelocs : stencil.relocations b.library.longJump with
  | none =>
      rw [hrelocs] at hr
      cases hr
  | some relocs =>
      rw [hrelocs] at hr
      obtain ⟨value, -, hfits⟩ := supportsValue_of_narrowFits
        (StencilFamily.narrowFits_of_select hsel hrelocs) hr (of_decide_eq_true hhole)
      exact (Relocation.of_supportsValue hfits).1

/-- Absolute fields of two values agree when the values do in the bits of the field. -/
theorem fieldFor_eq_iff {d : DelayedRelocation} (hrel : d.relocation.relative = false)
    {v w : Usize} (hlen : d.relocation.fieldLen ≤ 8) :
    fieldFor base off d v = fieldFor base off d w ↔
      v.toNat % 2 ^ (8 * d.relocation.fieldLen) = w.toNat % 2 ^ (8 * d.relocation.fieldLen) := by
  have hbytes : ∀ u : Usize, fieldFor base off d u = ⟨off + d.location, leBytes
      (u + d.relocation.addend.signExtend 64) d.relocation.fieldLen⟩ := by
    intro u
    rw [fieldFor, DelayedRelocation.fieldWrite, DelayedRelocation.resolved, hrel]
    rfl
  have hdvd : 2 ^ (8 * d.relocation.fieldLen) ∣ 2 ^ 64 := Nat.pow_dvd_pow 2 (by omega)
  rw [hbytes, hbytes, Write.mk.injEq, eq_self_iff_true, true_and, leBytes_eq_iff, BitVec.toNat_add,
    BitVec.toNat_add, Nat.mod_mod_of_dvd _ hdvd, Nat.mod_mod_of_dvd _ hdvd]
  constructor
  · intro h
    exact Nat.ModEq.add_right_cancel' _ h
  · intro h
    exact Nat.ModEq.add_right _ h

/-- The address of a slot, in the low bits. -/
theorem slotAddress_low (n k : Nat) (hk : k ≤ 64) :
    (b.slotAddress base off n).toNat % 2 ^ k = (base.toNat + off + b.slotStart n) % 2 ^ k := by
  have hdvd : 2 ^ k ∣ 2 ^ 64 := Nat.pow_dvd_pow 2 hk
  rw [b.slotAddress_eq base off n 0, BitVec.toNat_add, BitVec.toNat_ofNat, Nat.add_mod_mod,
    Nat.mod_mod_of_dvd _ hdvd, slotWrite, Nat.add_assoc]

/-- **The variant of the long jump**: the finalized field of a trampoline is what the selected variant
needs exactly when the variant fits: always for a wide one whose pool is small and not changed, and for a
narrow one only by chance. -/
theorem variant_followed
    (h : b.finalizeInto checks base off map blocks = some (.ok (), map')) {s : U16}
    (hs : s ∈ b.runtimeTrampolineSymbols) :
    ∃ sel, b.library.longJump.select #v[] #v[] #v[BitVec.allOnes 64] = some (some sel) ∧
      ∀ r ∈ b.longJumpEntries,
        (b.FollowsVariant base off blocks map' sel.wide s r ↔
          b.VariantFits base off blocks sel.wide s r) := by
  obtain ⟨-, -, hlong, -, hall⟩ := finalizeInto_ok h
  have hlen := longJumpCode_ne_nil h (List.ne_nil_of_mem hs)
  obtain ⟨lj, hlj, -⟩ := hlong (List.ne_nil_of_mem hs)
  obtain ⟨selected, hsel, hmap⟩ := Option.map_eq_some_iff.1 hlj
  obtain ⟨sel, rfl, -⟩ := Option.map_eq_some_iff.1 hmap
  obtain ⟨rt, hrt⟩ := rtSymbols_of_finalizeInto h hs
  refine ⟨sel, hsel, ?_⟩
  intro r hr
  have hmem := b.trampolineEntry_mem hs hr
  have hdrop := b.trampolineEntry_drop hs hr
  have hfield : r.fieldLen ≤ 8 := (hall _ hmem).2
  have hkept := readBytes_field_iff h hmem
  obtain ⟨wide, stencil⟩ := sel
  cases wide with
  -- wide: the entry names the symbol's slot if its number has 16 bits
  | true =>
      have hslot := readBytes_slot_iff h (poolValues_symbol hs hrt)
      constructor
      · rintro ⟨d, rt', hd, ho, hr', hrt', hread, n, ht, hn, -, hvalue⟩
        obtain rfl := Option.some.inj (hrt.symm.trans hrt')
        obtain rfl := eq_trampolineEntry hlen hs hd ho hr'
        have hlt := n.isLt
        rw [hn] at hvalue hlt
        refine ⟨hkept.1 hread, hlt, fun rt' hrt' => ?_⟩
        obtain rfl := Option.some.inj (hrt.symm.trans hrt')
        exact hslot.1 hvalue
      · rintro ⟨hfieldKept, hsmall, hslots⟩
        have hn : (BitVec.ofNat 16 (b.symbolSlot s)).toNat = b.symbolSlot s := by
          rw [BitVec.toNat_ofNat, Nat.mod_eq_of_lt hsmall]
        refine ⟨b.trampolineEntry s r, rt, hdrop, rfl, rfl, hrt, hkept.2 hfieldKept,
          BitVec.ofNat 16 (b.symbolSlot s), rfl, hn, ?_, ?_⟩
        · rw [entryWrite_trampoline, BitVec.toNat_ofNat]
          rfl
        · rw [hn]
          exact hslot.2 (hslots rt hrt)
  | false =>
      -- narrow: the field has the slot's address and should have the symbol's
      have habs : (b.trampolineEntry s r).relocation.relative = false := absolute_of_narrow hsel hr
      have hvalue : b.entryWrite base off blocks (b.trampolineEntry s r) =
            fieldFor base off (b.trampolineEntry s r) rt ↔
          (base.toNat + off + b.slotStart (b.indexedSlot s)) % 2 ^ (8 * r.fieldLen) =
            rt.toNat % 2 ^ (8 * r.fieldLen) := by
        rw [entryWrite_trampoline, ← slotAddress_low _ _ (show 8 * r.fieldLen ≤ 64 by omega)]
        exact fieldFor_eq_iff habs hfield
      constructor
      · rintro ⟨d, rt', hd, ho, hr', hrt', hread, hwrite⟩
        obtain rfl := Option.some.inj (hrt.symm.trans hrt')
        obtain rfl := eq_trampolineEntry hlen hs hd ho hr'
        refine ⟨hkept.1 hread, fun rt' hrt' => ?_⟩
        obtain rfl := Option.some.inj (hrt.symm.trans hrt')
        exact hvalue.1 hwrite
      · rintro ⟨hfieldKept, hfits⟩
        exact ⟨b.trampolineEntry s r, rt, hdrop, rfl, rfl, hrt, hkept.2 hfieldKept,
          hvalue.2 (hfits rt hrt)⟩

end PatchBlock

theorem variant_followed_called : ∃ b map', calledBlock sampleLibrary = some b ∧
    ∃ sel, b.library.longJump.select #v[] #v[] #v[BitVec.allOnes 64] = some (some sel) ∧
      ∀ r ∈ b.longJumpEntries,
        (b.FollowsVariant 0x1000 0 ⟨[]⟩ map' sel.wide 0 r ↔
          b.VariantFits 0x1000 0 ⟨[]⟩ sel.wide 0 r) := by
  have hrun : (linkCalled sampleLibrary 0x1000).map (fun p => (p.2.1,
      decide ((0 : U16) ∈ p.1.runtimeTrampolineSymbols))) = some (some (), true) := by
    decide +kernel
  obtain ⟨⟨b, res, map'⟩, hlink, hstate⟩ := Option.map_eq_some_iff.1 hrun
  simp only [Prod.mk.injEq, decide_eq_true_eq] at hstate
  obtain ⟨rfl, hs⟩ := hstate
  obtain ⟨hb, hfin⟩ := linkCalled_eq hlink
  exact ⟨b, map', hb, PatchBlock.variant_followed hfin hs⟩

/-- A signed absolute 32-bit field at offset 1 for `Hole(0)`: every hole value that is the sign extension
of 32 bits fits it, `usize::MAX` among them. -/
def pushField : Relocation := ⟨0x0000000020020001⟩

/-- The library with a narrow long jump that pushes the address and returns. -/
def pushLibrary : StencilLibrary 1 where
  code := sampleLibrary.code ++ [0x68, 0, 0, 0, 0, 0xC3]
  empty := sampleLibrary.empty
  longJump := ⟨[pushField, .new, holeField, .new], [⟨17, 6, 0⟩, ⟨11, 6, 2⟩]⟩
  rtSymbols := [0x3000]

/-- The narrow long jump pushes the address of the pool slot, `0x1010`. -/
theorem not_variant_followed : ¬ ∀ (b : PatchBlock 1) (map' : LoggedBuffer),
    calledBlock pushLibrary = some b →
      b.finalizeInto true 0x1000 0 ⟨List.replicate 24 0, []⟩ ⟨[]⟩ = some (.ok (), map') →
        ∀ sel, b.library.longJump.select #v[] #v[] #v[BitVec.allOnes 64] = some (some sel) →
          sel.wide = false → ∀ s ∈ b.runtimeTrampolineSymbols, ∀ rt ∈ b.library.rtSymbols[s.toNat]?,
            ∀ r ∈ b.longJumpEntries,
              readBytes map'.bytes (b.trampolineStart s + r.offset.toNat) r.fieldLen =
                r.fieldBytes rt := by
  intro hall
  have hrun : (linkCalled pushLibrary 0x1000).map (fun p => (p.2.1, p.2.2.bytes,
      (p.1.library.longJump.select #v[] #v[] #v[BitVec.allOnes 64]).map (Option.map (·.wide)),
      decide (p.1.runtimeTrampolineSymbols = [0] ∧ p.1.library.rtSymbols = [0x3000] ∧
        p.1.longJumpEntries = [pushField] ∧ p.1.trampolineStart 0 = 6))) =
      some (some (), [0xE8, 1, 0, 0, 0, 0xC3, 0x68, 0x10, 0x10, 0, 0, 0xC3, 0, 0, 0, 0,
        0, 0x30, 0, 0, 0, 0, 0, 0], some (some false), true) := by
    decide +kernel
  obtain ⟨⟨b, res, map'⟩, hlink, hstate⟩ := Option.map_eq_some_iff.1 hrun
  simp only [Prod.mk.injEq, decide_eq_true_eq] at hstate
  obtain ⟨rfl, hbytes, hsel, hsymbols, hrt, hentries, hstart⟩ := hstate
  obtain ⟨hb, hfin⟩ := linkCalled_eq hlink
  obtain ⟨selected, hselect, hwide⟩ := Option.map_eq_some_iff.1 hsel
  obtain ⟨sel, rfl, hnarrow⟩ := Option.map_eq_some_iff.1 hwide
  have hread := hall b map' hb hfin sel hselect hnarrow 0 (by rw [hsymbols]; exact List.mem_singleton_self _)
    0x3000 (by rw [hrt]; rfl) pushField (by rw [hentries]; exact List.mem_singleton_self _)
  rw [hbytes, hstart] at hread
  revert hread
  decide

end Patchouly.Patch
