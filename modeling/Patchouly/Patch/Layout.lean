import Patchouly.Patch.Plan
import Patchouly.Patch.Calls
import Patchouly.Lib.Regions

/-!
# The extent of a finalized block

`measure` and `finalizeInto` compute the extent of a block on two separate paths. `measure_eq` says
that they agree: the measured length is the end of the constant pool. `regions` are the parts of the
block, which tile its range (`tiles_regions`), and every write of a successful `finalizeInto` stays
inside that range when the relocation fields lie inside their stencils (`finalWrites_inside`,
`framed_of_finalizeInto`).
-/

set_option autoImplicit false

namespace Patchouly.Patch

open Patchouly.Lib Patchouly.Core

/-! ## Offsets of the blocks -/

namespace ProgramBlocks

theorem scan_spec (last : Nat) (lens : List Nat) :
    (scan last lens).1.length = lens.length ∧
      (∀ i < lens.length, (scan last lens).1[i]? = some (last + (lens.take i).sum)) ∧
      (scan last lens).2 = last + lens.sum := by
  induction lens generalizing last with
  | nil => simp [scan]
  | cons n rest ih =>
      obtain ⟨h1, h2, h3⟩ := ih (last + n)
      refine ⟨by simp [scan, h1], ?_, ?_⟩
      · intro i hi
        cases i with
        | zero => simp [scan]
        | succ i =>
            simp only [List.length_cons] at hi
            simp only [scan, List.getElem?_cons_succ, h2 i (by omega), List.take_succ_cons,
              List.sum_cons]
            congr 1
            omega
      · simp only [scan, h3, List.sum_cons]
        omega

/-- **`fromLens` is an exclusive prefix sum** and returns the sum of all lengths. -/
theorem fromLens_spec (lens : List Nat) :
    (fromLens lens).1.offsets.length = lens.length ∧
      (∀ i < lens.length, (fromLens lens).1.offsets[i]? = some (lens.take i).sum) ∧
      (fromLens lens).2 = lens.sum := by
  cases lens with
  | nil => simp [fromLens]
  | cons first rest =>
      obtain ⟨h1, h2, h3⟩ := scan_spec first rest
      refine ⟨by simp [fromLens, h1], ?_, by simp [fromLens, h3]⟩
      intro i hi
      cases i with
      | zero => simp [fromLens]
      | succ i =>
          simp only [List.length_cons] at hi
          simp only [fromLens, List.getElem?_cons_succ, h2 i (by omega), List.take_succ_cons,
            List.sum_cons]

/-- No offset lies behind the end of the program. -/
theorem offset_le {lens : List Nat} {o : Nat} (h : o ∈ (fromLens lens).1.offsets) :
    o ≤ (fromLens lens).2 := by
  obtain ⟨hlength, hoffsets, htotal⟩ := fromLens_spec lens
  obtain ⟨i, hi⟩ := List.mem_iff_getElem?.1 h
  have hlt := (List.getElem?_eq_some_iff.1 hi).1
  rw [hoffsets i (by omega)] at hi
  rw [htotal, ← Option.some.inj hi]
  conv_rhs => rw [← List.take_append_drop i lens, List.sum_append]
  exact Nat.le_add_right _ _

/-- A block ends at or before the end of the program. -/
theorem take_sum_add_le (lens : List Nat) {i n : Nat} (h : lens[i]? = some n) :
    (lens.take i).sum + n ≤ lens.sum := by
  obtain ⟨hlt, rfl⟩ := List.getElem?_eq_some_iff.1 h
  have hsplit : lens = lens.take i ++ (lens[i] :: lens.drop (i + 1)) := by
    rw [List.getElem_cons_drop, List.take_append_drop]
  have hsum : lens.sum = (lens.take i).sum + (lens[i] + (lens.drop (i + 1)).sum) := by
    conv_lhs => rw [hsplit]
    rw [List.sum_append, List.sum_cons]
  omega

end ProgramBlocks

theorem le_nextMultipleOf (n m : Nat) : n ≤ nextMultipleOf n m := by
  rw [nextMultipleOf]
  split <;> omega

theorem poolWrites_mem {start : Nat} {values : List Usize} {w : Write}
    (h : w ∈ poolWrites start values) :
    start ≤ w.pos ∧ w.stop ≤ start + usizeSize * values.length := by
  induction values generalizing start with
  | nil => cases h
  | cons c rest ih =>
      rcases List.mem_cons.1 h with rfl | h
      · simp only [Write.stop, neBytes, leBytes_length, List.length_cons, Nat.mul_add]
        omega
      · obtain ⟨h1, h2⟩ := ih h
        simp only [List.length_cons, Nat.mul_add]
        exact ⟨by omega, by omega⟩

theorem trampolineWrites_mem {start : Nat} {code : List U8} {symbols : List U16} {w : Write}
    (h : w ∈ trampolineWrites start code symbols) :
    start ≤ w.pos ∧ w.stop ≤ start + symbols.length * code.length := by
  induction symbols generalizing start with
  | nil => cases h
  | cons s rest ih =>
      rcases List.mem_cons.1 h with rfl | h
      · simp only [Write.stop, List.length_cons, Nat.add_mul]
        omega
      · obtain ⟨h1, h2⟩ := ih h
        simp only [List.length_cons, Nat.add_mul]
        exact ⟨by omega, by omega⟩

/-- The delayed fields of the trampolines lie behind `start`. -/
theorem trampolineEntries_start {entries : List Relocation} {len start index : Nat}
    {symbols : List U16} {d : DelayedRelocation}
    (h : d ∈ trampolineEntries entries len start index symbols) : start ≤ d.location := by
  induction symbols generalizing start index with
  | nil => cases h
  | cons s rest ih =>
      rcases List.mem_append.1 h with h | h
      · obtain ⟨r, -, rfl⟩ := List.mem_map.1 h
        exact Nat.le_add_right _ _
      · have := ih h
        omega

/-- The delayed fields of the trampolines lie inside the trampolines. -/
theorem trampolineEntries_mem {entries : List Relocation} {len start index : Nat}
    {symbols : List U16} (hin : ∀ r ∈ entries, r.offset.toNat + r.fieldLen ≤ len)
    {d : DelayedRelocation} (h : d ∈ trampolineEntries entries len start index symbols) :
    start ≤ d.location ∧ d.fieldEnd ≤ start + symbols.length * len := by
  induction symbols generalizing start index with
  | nil => cases h
  | cons s rest ih =>
      rcases List.mem_append.1 h with h | h
      · obtain ⟨r, hr, rfl⟩ := List.mem_map.1 h
        have := hin r hr
        simp only [DelayedRelocation.constant, DelayedRelocation.fieldEnd,
          DelayedRelocation.location, List.length_cons, Nat.add_mul]
        omega
      · obtain ⟨h1, h2⟩ := ih h
        simp only [List.length_cons, Nat.add_mul]
        exact ⟨by omega, by omega⟩

/-- The positions a write covers. -/
def writeRegion (w : Write) : Region := ⟨w.pos, w.stop⟩

theorem trampolineWrites_regions (start : Nat) (code : List U8) (symbols : List U16) :
    (trampolineWrites start code symbols).map writeRegion =
      evenRegions code.length start symbols.length := by
  induction symbols generalizing start with
  | nil => rfl
  | cons s rest ih =>
      simp only [trampolineWrites, List.map_cons, ih, List.length_cons, evenRegions]
      rfl

theorem poolWrites_regions (start : Nat) (values : List Usize) :
    (poolWrites start values).map writeRegion = evenRegions usizeSize start values.length := by
  induction values generalizing start with
  | nil => rfl
  | cons c rest ih =>
      simp only [poolWrites, List.map_cons, ih, List.length_cons, evenRegions, writeRegion,
        Write.stop, neBytes, leBytes_length]

namespace PatchBlock

variable {MAX_REGS : Nat}

/-- The code and the trampolines of the block from `off` on. -/
def codeRegions (b : PatchBlock MAX_REGS) (off : Nat) : List Region :=
  ⟨off, off + b.code.length⟩ ::
    evenRegions b.longJumpCode.length (off + b.code.length) b.runtimeTrampolineSymbols.length

/-- The pool slots of the block from `off` on. -/
def poolRegions (b : PatchBlock MAX_REGS) (off : Nat) : List Region :=
  evenRegions usizeSize (off + b.poolBase) b.poolValues.length

/-- The parts of the block from `off` on: code, trampolines, padding and pool slots. -/
def regions (b : PatchBlock MAX_REGS) (off : Nat) : List Region :=
  b.codeRegions off ++ ⟨off + b.codeEnd, off + b.poolBase⟩ :: b.poolRegions off

/-- The writes before the relocation loop fill the regions, except for the padding. -/
theorem layoutWrites_regions (b : PatchBlock MAX_REGS) (off : Nat) :
    (b.layoutWrites off).map writeRegion = b.codeRegions off ++ b.poolRegions off := by
  simp only [layoutWrites, List.map_cons, List.map_append, trampolineWrites_regions,
    poolWrites_regions, codeRegions, poolRegions, List.cons_append]
  rfl

/-- The end of the constant pool. -/
def extent (b : PatchBlock MAX_REGS) : Nat := b.poolBase + b.poolValues.length * usizeSize

theorem codeEnd_le_poolBase (b : PatchBlock MAX_REGS) : b.codeEnd ≤ b.poolBase := by
  unfold poolBase constantBase
  split
  · exact Nat.le_refl _
  · exact le_nextMultipleOf _ _

theorem tiles_poolRegions (b : PatchBlock MAX_REGS) (off : Nat) :
    Tiles (off + b.poolBase) (b.poolRegions off) (off + b.extent) := by
  have hpool := tiles_evenRegions usizeSize (off + b.poolBase) b.poolValues.length
  rw [Nat.add_assoc] at hpool
  exact hpool

/-- **The parts of a block tile its range.** -/
theorem tiles_regions (b : PatchBlock MAX_REGS) (off : Nat) :
    Tiles off (b.regions off) (off + b.extent) := by
  have hpad := b.codeEnd_le_poolBase
  have htramp := tiles_evenRegions b.longJumpCode.length (off + b.code.length)
    b.runtimeTrampolineSymbols.length
  rw [Nat.add_assoc] at htramp
  have hcode : Tiles off (b.codeRegions off) (off + b.codeEnd) := ⟨rfl, by simp, htramp⟩
  refine hcode.append ⟨rfl, ?_, b.tiles_poolRegions off⟩
  simp only
  omega

/-- **The measured length is the end of the pool**, when the trampolines are as long as the selected
stencil says. -/
theorem measure_eq {b : PatchBlock MAX_REGS} {len : Nat} (h : b.measure = some (some len))
    (hlong : b.runtimeTrampolineSymbols ≠ [] → ∃ lj, b.longJumpStencil = some (some lj) ∧
      lj.code b.library.code = some b.longJumpCode) : len = b.extent := by
  rw [measure] at h
  split at h
  · simp at h
  · obtain ⟨n, hn, hlen⟩ := Option.map_eq_some_iff.1 h
    obtain rfl := Option.some.inj hlen
    simp only [finalLen, Option.bind_eq_bind, Option.pure_def] at hn
    obtain ⟨lj, hlj, hn1⟩ := Option.bind_eq_some_iff.1 hn
    -- the announced length of the long jump is the length of the code that is copied
    have hcode : b.runtimeTrampolineSymbols.length * (lj.map (·.codeLen.toNat)).getD 0 =
        b.runtimeTrampolineSymbols.length * b.longJumpCode.length := by
      by_cases hnil : b.runtimeTrampolineSymbols = []
      · simp [hnil]
      · obtain ⟨s, hs, hc⟩ := hlong hnil
        rw [hlj] at hs
        obtain rfl := Option.some.inj hs
        rw [Stencil.code_length hc]
        rfl
    have hvalues : b.poolValues.length =
        b.constants.length + b.runtimeTrampolineSymbols.length := by
      simp [poolValues]
    rw [hcode] at hn1
    split at hn1
    · next hzero =>
      obtain rfl := Option.some.inj hn1
      have hc : b.constants = [] := List.length_eq_zero_iff.1 (by omega)
      have hr : b.runtimeTrampolineSymbols = [] := List.length_eq_zero_iff.1 (by omega)
      simp [extent, poolBase, constantBase, codeEnd, hvalues, hc, hr]
    · next hpos =>
      obtain rfl := Option.some.inj hn1
      have hne : (b.constants.isEmpty && b.runtimeTrampolineSymbols.isEmpty) = false := by
        by_contra hboth
        rw [Bool.not_eq_false, Bool.and_eq_true, List.isEmpty_iff, List.isEmpty_iff] at hboth
        exact hpos (by rw [hboth.1, hboth.2]; rfl)
      simp only [extent, poolBase, constantBase, hne, hvalues, codeEnd]
      simp

/-- Delayed fields that lie inside their code end before the pool. -/
theorem fieldEnd_le_codeEnd {b : PatchBlock MAX_REGS}
    (hin : ∀ d ∈ b.relocations, d.fieldEnd ≤ b.code.length)
    (hlong : b.runtimeTrampolineSymbols ≠ [] → FieldsInside b.longJumpCode b.longJumpEntries)
    {d : DelayedRelocation} (hd : d ∈ b.delayedEntries) : d.fieldEnd ≤ b.codeEnd := by
  rcases List.mem_append.1 hd with hd | hd
  · exact Nat.le_trans (hin d hd) (Nat.le_add_right _ _)
  · exact (trampolineEntries_mem (hlong (symbols_ne_nil_of_trampolineEntry hd)) hd).2

/-- **Every write stays inside the range of the block.** -/
theorem finalWrites_inside {b : PatchBlock MAX_REGS} {base : Usize} {off : Nat}
    {blocks : ProgramBlocks} (hin : ∀ d ∈ b.relocations, d.fieldEnd ≤ b.code.length)
    (hlong : b.runtimeTrampolineSymbols ≠ [] → FieldsInside b.longJumpCode b.longJumpEntries)
    {w : Write} (hw : w ∈ b.finalWrites base off blocks) :
    off ≤ w.pos ∧ w.stop ≤ off + b.extent := by
  have hpad := b.codeEnd_le_poolBase
  have hext : b.poolBase + usizeSize * b.poolValues.length = b.extent := by
    rw [extent, Nat.mul_comm]
  have hcode : b.codeEnd ≤ b.extent := by omega
  have hend : b.code.length ≤ b.codeEnd := Nat.le_add_right _ _
  rcases List.mem_append.1 hw with hw | hw
  · rcases List.mem_cons.1 hw with rfl | hw
    · simp only [Write.stop]
      omega
    · rcases List.mem_append.1 hw with hw | hw
      · obtain ⟨h1, h2⟩ := trampolineWrites_mem hw
        simp only [codeEnd] at hcode
        omega
      · obtain ⟨h1, h2⟩ := poolWrites_mem hw
        omega
  · obtain ⟨d, hd, rfl⟩ := List.mem_map.1 hw
    simp only [entryWrite, DelayedRelocation.fieldWrite_pos, DelayedRelocation.fieldWrite_stop]
    have hfield := fieldEnd_le_codeEnd hin hlong hd
    omega

/-- The writes before the relocation loop follow each other. -/
theorem layoutWrites_pairwise (b : PatchBlock MAX_REGS) (off : Nat) :
    (b.layoutWrites off).Pairwise fun w v => w.stop ≤ v.pos := by
  have hsub : List.Sublist ((b.layoutWrites off).map writeRegion) (b.regions off) := by
    rw [layoutWrites_regions]
    exact List.Sublist.append_left (List.sublist_cons_self _ _) _
  exact List.pairwise_map.1 ((b.tiles_regions off).pairwise.sublist hsub)

/-- **The bytes of the layout**: a part of the block is found in the map where no delayed field lies
over it. -/
theorem byte_of_layout {checks : Bool} {b : PatchBlock MAX_REGS} {base : Usize} {off x : Nat}
    {map map' : LoggedBuffer} {blocks : ProgramBlocks}
    (h : b.finalizeInto checks base off map blocks = some (.ok (), map')) {w : Write}
    (hw : w ∈ b.layoutWrites off) (hx : w.Covers x) :
    map'.bytes[x]? =
      (lastByte (b.delayedEntries.map (b.entryWrite base off blocks)) x).or (w.byteAt x) := by
  obtain ⟨-, -, -, hext, -⟩ := finalizeInto_ok h
  have hplaced := lastByte_of_pairwise
    ((b.layoutWrites_pairwise off).imp Write.apart_of_stop_le) hw hx
  obtain ⟨byte, hbyte⟩ := Option.isSome_iff_exists.1 (Write.byteAt_isSome.2 hx)
  rw [applyWrites_getElem? hext.bytes, finalWrites, lastByte_append, hplaced, hbyte]
  cases lastByte (b.delayedEntries.map (b.entryWrite base off blocks)) x <;> rfl

/-- The same without a delayed field. -/
theorem byte_of_layout_of_free {checks : Bool} {b : PatchBlock MAX_REGS} {base : Usize} {off x : Nat}
    {map map' : LoggedBuffer} {blocks : ProgramBlocks}
    (h : b.finalizeInto checks base off map blocks = some (.ok (), map')) {w : Write}
    (hw : w ∈ b.layoutWrites off) (hx : w.Covers (off + x))
    (hfree : ∀ d ∈ b.delayedEntries, ¬ (d.location ≤ x ∧ x < d.fieldEnd)) :
    map'.bytes[off + x]? = w.byteAt (off + x) := by
  have hfields : lastByte (b.delayedEntries.map (b.entryWrite base off blocks)) (off + x) = none := by
    apply lastByte_eq_none
    intro v hv hc
    obtain ⟨d, hd, rfl⟩ := List.mem_map.1 hv
    rw [entryWrite, DelayedRelocation.fieldWrite_covers] at hc
    exact hfree d hd ⟨by omega, by omega⟩
  rw [byte_of_layout h hw hx, hfields, Option.none_or]

/-- **A code byte that no delayed field covers** is copied to the map as it is. -/
theorem code_byte_of_finalizeInto {checks : Bool} {b : PatchBlock MAX_REGS} {base : Usize}
    {off x : Nat} {map map' : LoggedBuffer} {blocks : ProgramBlocks}
    (h : b.finalizeInto checks base off map blocks = some (.ok (), map'))
    (hx : x < b.code.length)
    (hfree : ∀ d ∈ b.delayedEntries, ¬ (d.location ≤ x ∧ x < d.fieldEnd)) :
    map'.bytes[off + x]? = b.code[x]? := by
  have hcov : (Write.mk off b.code).Covers (off + x) :=
    ⟨Nat.le_add_right _ _, by simp only [Write.stop]; omega⟩
  rw [byte_of_layout_of_free h List.mem_cons_self hcov hfree, Write.byteAt_of_covers hcov,
    Nat.add_sub_cancel_left]

/-- The delayed fields that are patched behind the entry `d` leave its bytes, or write the same ones. -/
def FieldKept (b : PatchBlock MAX_REGS) (base : Usize) (off : Nat) (blocks : ProgramBlocks)
    (d : DelayedRelocation) : Prop :=
  ∃ pre post, b.delayedEntries = pre ++ d :: post ∧
    (b.entryWrite base off blocks d).KeptBy (post.map (b.entryWrite base off blocks))

/-- **A delayed field** holds what it was patched with exactly when the later ones keep it. -/
theorem readBytes_field_iff {checks : Bool} {b : PatchBlock MAX_REGS} {base : Usize} {off : Nat}
    {map map' : LoggedBuffer} {blocks : ProgramBlocks}
    (h : b.finalizeInto checks base off map blocks = some (.ok (), map')) {d : DelayedRelocation}
    (hd : d ∈ b.delayedEntries) :
    readBytes map'.bytes (off + d.location) d.relocation.fieldLen =
      (b.entryWrite base off blocks d).bytes ↔ b.FieldKept base off blocks d := by
  obtain ⟨-, -, -, hext, -⟩ := finalizeInto_ok h
  have hlen : (b.entryWrite base off blocks d).bytes.length = d.relocation.fieldLen :=
    Relocation.fieldBytes_length _ _
  have hsplit : ∀ pre post, b.delayedEntries = pre ++ d :: post →
      (readBytes map'.bytes (off + d.location) d.relocation.fieldLen =
        (b.entryWrite base off blocks d).bytes ↔
          (b.entryWrite base off blocks d).KeptBy (post.map (b.entryWrite base off blocks))) := by
    intro pre post heq
    have hbytes := hext.bytes
    rw [finalWrites, heq, List.map_append, List.map_cons, ← List.append_assoc] at hbytes
    have hread := readBytes_iff_keptBy hbytes
    rw [hlen] at hread
    exact hread
  constructor
  · intro hread
    obtain ⟨pre, post, heq⟩ := List.append_of_mem hd
    exact ⟨pre, post, heq, (hsplit pre post heq).1 hread⟩
  · rintro ⟨pre, post, heq, hkept⟩
    exact (hsplit pre post heq).2 hkept

/-- The relocation fields of the long jump lie inside its code. -/
def LongJumpInside (library : StencilLibrary MAX_REGS) : Prop :=
  ∀ sel ∈ (PatchBlock.new library).longJumpStencil, ∀ lj ∈ sel, ∀ code ∈ lj.code library.code,
    ∀ relocs ∈ lj.relocations library.longJump, FieldsInside code (validEntries relocs)

instance (library : StencilLibrary MAX_REGS) : Decidable (LongJumpInside library) :=
  inferInstanceAs (Decidable (∀ sel ∈ (PatchBlock.new library).longJumpStencil, ∀ lj ∈ sel,
    ∀ code ∈ lj.code library.code, ∀ relocs ∈ lj.relocations library.longJump,
      FieldsInside code (validEntries relocs)))

theorem LongJumpInside.longJumpEntries {b : PatchBlock MAX_REGS} {lj : Stencil}
    (h : LongJumpInside b.library) (hsel : b.longJumpStencil = some (some lj))
    (hcode : lj.code b.library.code = some b.longJumpCode) :
    FieldsInside b.longJumpCode b.longJumpEntries := by
  intro r hr
  have hlj : b.longJumpOrEmpty = lj := by simp [longJumpOrEmpty, hsel]
  rw [PatchBlock.longJumpEntries, hlj] at hr
  cases hrelocs : lj.relocations b.library.longJump with
  | none => simp [hrelocs, holeZeroEntries, validEntries] at hr
  | some relocs =>
      rw [hrelocs] at hr
      exact h _ hsel _ rfl _ hcode _ hrelocs r (List.mem_of_mem_filter hr)

/-- What a successful `finalizeInto` does to a map, for a block with the range from `off` to
`off + len`. -/
structure Framed (b : PatchBlock MAX_REGS) (off len : Nat) (before after : LoggedBuffer) : Prop where
  /-- Only positions of the range are indexed and written, and the parts are placed first. -/
  log : ∃ placed fields, after.log = before.log ++ (placed ++ fields) ∧
    placed.map writeRegion = b.codeRegions off ++ b.poolRegions off ∧
    ∀ w ∈ placed ++ fields, off ≤ w.pos ∧ w.stop ≤ off + len
  others : ∀ x, x < off ∨ off + len ≤ x → after.bytes[x]? = before.bytes[x]?
  length : after.bytes.length = before.bytes.length
  inside : ∀ r ∈ b.regions off, off ≤ r.start ∧ r.start ≤ r.stop ∧ r.stop ≤ off + len
  disjoint : (b.regions off).Pairwise fun r s => r.stop ≤ s.start
  /-- The last pool slot ends with the range. -/
  pool : ∀ r ∈ (b.poolRegions off).getLast?, r.stop = off + len

/-- **A successful `finalizeInto` stays in the measured range.** -/
theorem framed_of_finalizeInto {checks : Bool} {b : PatchBlock MAX_REGS} {base : Usize}
    {off len : Nat} {map map' : LoggedBuffer} {blocks : ProgramBlocks}
    (hin : ∀ d ∈ b.relocations, d.fieldEnd ≤ b.code.length)
    (hlong : LongJumpInside b.library) (hlen : b.measure = some (some len))
    (h : b.finalizeInto checks base off map blocks = some (.ok (), map')) :
    Framed b off len map map' := by
  obtain ⟨-, -, hlj, hext, -⟩ := finalizeInto_ok h
  obtain rfl := measure_eq hlen hlj
  have hinside : ∀ w ∈ b.finalWrites base off blocks, off ≤ w.pos ∧ w.stop ≤ off + b.extent := by
    intro w hw
    apply finalWrites_inside hin _ hw
    intro hne
    obtain ⟨lj, hsel, hcode⟩ := hlj hne
    exact hlong.longJumpEntries hsel hcode
  have htiles := b.tiles_regions off
  refine ⟨⟨_, _, hext.log, b.layoutWrites_regions off, hinside⟩, fun x hx => ?_,
    applyWrites_length hext.bytes, htiles.inside, htiles.pairwise,
    (b.tiles_poolRegions off).stop_getLast?⟩
  rw [applyWrites_getElem? hext.bytes x, lastByte_eq_none, Option.none_or]
  intro w hw hc
  obtain ⟨h1, h2⟩ := hinside w hw
  obtain ⟨h3, h4⟩ := hc
  omega

end PatchBlock

end Patchouly.Patch
