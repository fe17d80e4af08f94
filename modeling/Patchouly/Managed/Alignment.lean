import Patchouly.Managed.Programs
import Patchouly.Patch.WideHoles

/-!
# Pool slots of a program

`finalLen` and `finalizeInto` round the end of the code up to a multiple of `usizeSize`, counted from
the start of the block. A block without a pool is not padded, so the blocks behind it can start
anywhere. `sum_take_mod` counts what the blocks before a block leave behind, and `slotsAligned_iff`
says for which programs the slots of all pools are aligned.
-/

set_option autoImplicit false

namespace Patchouly.Managed

open Patchouly.Lib Patchouly.Core Patchouly.Patch PatchFunctionBuilder

variable {σ : Type → Type} {MAX_REGS : Nat} {checks : Bool}

theorem ok_of_bind_toOption {ε α : Type} {res : Option (Except ε α)} {a : α}
    (h : res.bind Except.toOption = some a) : res = some (.ok a) := by
  obtain ⟨r, rfl, hr⟩ := Option.bind_eq_some_iff.1 h
  cases r with
  | error e => cases hr
  | ok b =>
      obtain rfl := Option.some.inj hr
      rfl

/-! ## The blocks that were finalized -/

/-- The measured lengths, one per block. -/
theorem measureBlocks_ok {scopes : List (BlockScope MAX_REGS)} {lens : List Nat}
    (h : measureBlocks scopes = some (.ok lens)) :
    List.Forall₂ (fun scope len => scope.block.measure = some (some len)) scopes lens := by
  induction scopes generalizing lens with
  | nil =>
      rw [measureBlocks, Option.some.injEq, Except.ok.injEq] at h
      rw [← h]
      exact .nil
  | cons scope rest ih =>
      rw [measureBlocks, Option.bind_eq_bind, Option.bind_eq_some_iff] at h
      obtain ⟨measured, hmeasured, h⟩ := h
      cases measured with
      | none => cases h
      | some len =>
          obtain ⟨res, hres, h⟩ := Option.bind_eq_some_iff.1 h
          cases res with
          | error e => cases h
          | ok rest' =>
              obtain rfl : len :: rest' = lens := by
                injection h with h
                injection h
              exact .cons hmeasured (ih hres)

/-- The block at index `i` was finalized at its offset, and what it wrote stays in the log. -/
theorem finalizeBlocks_ok {base : Usize} {offsets : ProgramBlocks} {start : Nat}
    {scopes : List (BlockScope MAX_REGS)} {map map' : LoggedBuffer}
    (h : finalizeBlocks checks base offsets start scopes map = some (.ok (), map')) :
    ∃ log, map'.log = map.log ++ log ∧ ∀ (i : Nat) (scope : BlockScope MAX_REGS),
      scopes[i]? = some scope → ∃ off before after, offsets.offsets[start + i]? = some off ∧
        scope.block.finalizeInto checks base off before offsets = some (.ok (), after) ∧
        ∀ w ∈ scope.block.finalWrites base off offsets, w ∈ log := by
  induction scopes generalizing start map with
  | nil =>
      obtain ⟨-, rfl⟩ : _ ∧ map = map' := by
        rw [finalizeBlocks, Option.some.injEq, Prod.mk.injEq] at h
        exact h
      refine ⟨[], (List.append_nil _).symm, ?_⟩
      intro i scope hscope
      cases hscope
  | cons first rest ih =>
      rw [finalizeBlocks, Option.bind_eq_bind, Option.bind_eq_some_iff] at h
      obtain ⟨off, hoff, h⟩ := h
      obtain ⟨⟨res, mid⟩, hfin, h⟩ := Option.bind_eq_some_iff.1 h
      cases res with
      | error e => cases h
      | ok u =>
          obtain ⟨log, hlog, hrest⟩ := ih h
          have hext := (PatchBlock.finalizeInto_ok hfin).2.2.2.1
          refine ⟨first.block.finalWrites base off offsets ++ log, ?_, ?_⟩
          · rw [hlog, hext.log, List.append_assoc]
          · intro i scope hscope
            cases i with
            | zero =>
                obtain rfl := Option.some.inj hscope
                exact ⟨off, map, mid, hoff, hfin, fun w hw => List.mem_append_left _ hw⟩
            | succ i =>
                obtain ⟨off', before, after, hoff', hfin', hwrites⟩ := hrest i scope hscope
                rw [Nat.add_right_comm] at hoff'
                exact ⟨off', before, after, hoff', hfin',
                  fun w hw => List.mem_append_right _ (hwrites w hw)⟩

/-- A successful `finalizeInto` finalizes all blocks in the memory of the allocator. -/
theorem finalizeInto_ok {self : PatchFunctionBuilder σ MAX_REGS}
    {allocator : Nat → Except PatchError (LoggedBuffer × Usize)} {lens : List Nat}
    {map map' : LoggedBuffer} {base : Usize} {stack : U16}
    (h : self.finalizeInto checks allocator = some (.ok (map', stack)))
    (hlens : measureBlocks self.blocks = some (.ok lens))
    (hmap : allocator (ProgramBlocks.fromLens lens).2 = .ok (map, base)) :
    finalizeBlocks checks base (ProgramBlocks.fromLens lens).1 0 self.blocks map =
      some (.ok (), map') := by
  rw [PatchFunctionBuilder.finalizeInto, hlens, Option.bind_eq_bind, Option.bind_some] at h
  simp only [hmap] at h
  obtain ⟨⟨res, map''⟩, hfin, h⟩ := Option.bind_eq_some_iff.1 h
  cases res with
  | error e => cases h
  | ok u =>
      obtain ⟨rfl, -⟩ : map'' = map' ∧ _ := by
        injection h with h
        injection h with h
        exact Prod.mk.inj h
      exact hfin

/-! ## Where the pools lie -/

/-- Every pool slot of every block was written, and lies at a multiple of `usizeSize`. -/
def SlotsAligned (base : Usize) (blocks : List (PatchBlock MAX_REGS)) (offsets : ProgramBlocks)
    (log : List Write) : Prop :=
  ∀ (i n off : Nat) (b : PatchBlock MAX_REGS) (v : Usize), blocks[i]? = some b →
    offsets.offsets[i]? = some off → b.poolValues[n]? = some v →
      b.slotWrite off n v ∈ log ∧
      b.slotAddress base off n = base + BitVec.ofNat 64 (b.slotWrite off n v).pos ∧
      (b.slotAddress base off n).toNat % usizeSize = 0

/-- The blocks without a pool in front of a block with one have a multiple of `usizeSize` code
bytes together. -/
def PoolsPreceded (blocks : List (PatchBlock MAX_REGS)) : Prop :=
  ∀ (i : Nat) (b : PatchBlock MAX_REGS), blocks[i]? = some b → ¬ b.Poolless →
    ((blocks.take i).map PatchBlock.unpadded).sum % usizeSize = 0

/-- **The start of a block**: only the blocks without a pool count. -/
theorem sum_take_mod {blocks : List (PatchBlock MAX_REGS)} {lens : List Nat}
    (h : List.Forall₂ (fun b len => len = b.extent) blocks lens) (i : Nat) :
    (lens.take i).sum % usizeSize =
      ((blocks.take i).map PatchBlock.unpadded).sum % usizeSize := by
  induction h generalizing i with
  | nil => rw [List.take_nil, List.take_nil]; rfl
  | cons hlen hrest ih =>
      cases i with
      | zero => rfl
      | succ i =>
          rw [List.take_succ_cons, List.take_succ_cons, List.map_cons, List.sum_cons, List.sum_cons,
            Nat.add_mod, ih i, hlen, PatchBlock.extent_mod, ← Nat.add_mod]

/-- The measured lengths are the ends of the pools. -/
theorem extents_of_finalizeBlocks {base : Usize} {offsets : ProgramBlocks}
    {scopes : List (BlockScope MAX_REGS)} {map map' : LoggedBuffer} {lens : List Nat}
    (h : finalizeBlocks checks base offsets 0 scopes map = some (.ok (), map'))
    (hlens : measureBlocks scopes = some (.ok lens)) :
    List.Forall₂ (fun b len => len = b.extent) (scopes.map (·.block)) lens := by
  obtain ⟨_, -, hblocks⟩ := finalizeBlocks_ok h
  obtain ⟨hcount, hmeasured⟩ := List.forall₂_iff_get.1 (measureBlocks_ok hlens)
  rw [List.forall₂_map_left_iff, List.forall₂_iff_get]
  refine ⟨hcount, fun i hi hi' => ?_⟩
  obtain ⟨_, _, _, -, hfin, -⟩ := hblocks i _ (List.getElem?_eq_getElem hi)
  exact PatchBlock.measure_eq (hmeasured i hi hi') (PatchBlock.finalizeInto_ok hfin).2.2.1

/-- **The pools of a program are aligned** exactly when the blocks without a pool do not move them. -/
theorem slotsAligned_iff {self : PatchFunctionBuilder σ MAX_REGS}
    {allocator : Nat → Except PatchError (LoggedBuffer × Usize)} {lens : List Nat}
    {map map' : LoggedBuffer} {base : Usize} {stack : U16}
    (h : self.finalizeInto checks allocator = some (.ok (map', stack)))
    (hlens : measureBlocks self.blocks = some (.ok lens))
    (hmap : allocator (ProgramBlocks.fromLens lens).2 = .ok (map, base))
    (hbase : base.toNat % usizeSize = 0) :
    SlotsAligned base (self.blocks.map (·.block)) (ProgramBlocks.fromLens lens).1 map'.log ↔
      PoolsPreceded (self.blocks.map (·.block)) := by
  have hfin := finalizeInto_ok h hlens hmap
  have hextents := extents_of_finalizeBlocks hfin hlens
  have hcount := hextents.length_eq
  obtain ⟨log, hlog, hblocks⟩ := finalizeBlocks_ok hfin
  have hoffsets := (ProgramBlocks.fromLens_spec lens).2.1
  -- a block starts where the blocks before it end
  have hstart : ∀ (i off : Nat) (b : PatchBlock MAX_REGS), (self.blocks.map (·.block))[i]? = some b →
      (ProgramBlocks.fromLens lens).1.offsets[i]? = some off →
      off % usizeSize =
        (((self.blocks.map (·.block)).take i).map PatchBlock.unpadded).sum % usizeSize := by
    intro i off b hb hoff
    rw [hoffsets i (hcount ▸ (List.getElem?_eq_some_iff.1 hb).1), Option.some.injEq] at hoff
    rw [← hoff, sum_take_mod hextents]
  constructor
  · intro haligned i b hb hpool
    have hi := (List.getElem?_eq_some_iff.1 hb).1
    have hoff := hoffsets i (hcount ▸ hi)
    obtain ⟨v, hv⟩ := List.exists_mem_of_ne_nil _ (mt PatchBlock.poolless_iff.2 hpool)
    obtain ⟨n, hn⟩ := List.mem_iff_getElem?.1 hv
    obtain ⟨-, -, hslot⟩ := haligned i n _ b v hb hoff hn
    rw [PatchBlock.slotAddress_mod hpool hbase] at hslot
    rw [← hstart i _ b hb hoff, hslot]
  · intro hpre i n off b v hb hoff hv
    have hpool : ¬ b.Poolless := by
      intro hnone
      rw [PatchBlock.poolless_iff.1 hnone] at hv
      cases hv
    refine ⟨?_, PatchBlock.slotAddress_eq base off n v, ?_⟩
    · obtain ⟨scope, hscope, rfl⟩ := Option.map_eq_some_iff.1 (List.getElem?_map ▸ hb)
      obtain ⟨off', before, after, hoff', -, hwrites⟩ := hblocks i scope hscope
      rw [Nat.zero_add, hoff] at hoff'
      obtain rfl := Option.some.inj hoff'
      rw [hlog]
      exact List.mem_append_right _ (hwrites _ (List.mem_append_left _
        (PatchBlock.slotWrite_mem hv)))
    · rw [PatchBlock.slotAddress_mod hpool hbase, hstart i off b hb hoff]
      exact hpre i b hb hpool

/-- Memory at a base. -/
def memoryAt (base : Usize) (len : Nat) : Except PatchError (LoggedBuffer × Usize) :=
  .ok (⟨List.replicate len 0, []⟩, base)

theorem slotsAligned_iff_call : ∃ (m : Machine VecSlab 1) (map' : LoggedBuffer) (stack : U16),
    tidyRunOf sampleLibrary callOps = some m ∧
    m.builder.finalizeInto true (memoryAt 0x1000) = some (.ok (map', stack)) ∧
    (SlotsAligned 0x1000 m.codes (ProgramBlocks.fromLens [24, 1]).1 map'.log ↔
      PoolsPreceded m.codes) := by
  have hrun : ((tidyRunOf sampleLibrary callOps).map fun m =>
      ((m.builder.finalizeInto true (memoryAt 0x1000)).bind Except.toOption).isSome &&
        decide ((measureBlocks m.builder.blocks).bind Except.toOption = some [24, 1])) =
          some true := by
    decide +kernel
  obtain ⟨m, hm, hstate⟩ := Option.map_eq_some_iff.1 hrun
  rw [Bool.and_eq_true, decide_eq_true_eq] at hstate
  obtain ⟨hfin, hlens⟩ := hstate
  obtain ⟨⟨map', stack⟩, hmap⟩ := Option.isSome_iff_exists.1 hfin
  have hfinal := ok_of_bind_toOption hmap
  exact ⟨m, map', stack, hm, hfinal,
    slotsAligned_iff hfinal (ok_of_bind_toOption hlens) rfl (by decide)⟩

/-! ## A pool behind an unpadded block -/

/-- A jump in the entry and a wide constant in its child: the five bytes of the jump are not
padded. -/
def shiftedOps : List (Op 1) :=
  [.createBlock, .switchToEntry, .endBranch jumpFamily nil nil nil (.singleton (.child 1)) 1,
    .emit wideFamily nil nil (.singleton 0x10000000000), .ret retFamily nil nil]

theorem not_slotsAligned : ¬ ∀ (m : Machine VecSlab 1) (lens : List Nat) (map' : LoggedBuffer)
    (stack : U16), (machineSystem VecSlab true sampleLibrary).Reachable m →
      m.builder.finalizeInto true (memoryAt 0x1000) = some (.ok (map', stack)) →
      measureBlocks m.builder.blocks = some (.ok lens) →
        SlotsAligned 0x1000 m.codes (ProgramBlocks.fromLens lens).1 map'.log := by
  intro hall
  have hrun : ((tidyRunOf sampleLibrary shiftedOps).map fun m =>
      ((m.builder.finalizeInto true (memoryAt 0x1000)).bind Except.toOption).isSome &&
        decide ((measureBlocks m.builder.blocks).bind Except.toOption = some [5, 16]) &&
        decide (m.codes.map (fun b => (b.poolBase, b.poolValues)) =
          [(5, []), (8, [0x10000000000])])) = some true := by
    decide +kernel
  obtain ⟨m, hm, hstate⟩ := Option.map_eq_some_iff.1 hrun
  rw [Bool.and_eq_true, Bool.and_eq_true, decide_eq_true_eq, decide_eq_true_eq] at hstate
  obtain ⟨⟨hfin, hlens⟩, hpools⟩ := hstate
  obtain ⟨⟨map', stack⟩, hmap⟩ := Option.isSome_iff_exists.1 hfin
  have haligned := hall m [5, 16] map' stack (reachable_of_machineRunOf (fun _ _ _ h => h) hm).of_guard
    (ok_of_bind_toOption hmap) (ok_of_bind_toOption hlens)
  -- the child starts at 5, its pool at 13
  have hchild : (m.codes.map (fun b => (b.poolBase, b.poolValues)))[1]? =
      some (8, [0x10000000000]) := by
    rw [hpools]
    rfl
  rw [List.getElem?_map] at hchild
  obtain ⟨b, hb, hpool⟩ := Option.map_eq_some_iff.1 hchild
  obtain ⟨hbase, hvalues⟩ := Prod.mk.inj hpool
  have hslot := (haligned 1 0 5 b 0x10000000000 hb rfl (by rw [hvalues]; rfl)).2.2
  rw [PatchBlock.slotAddress, hbase] at hslot
  revert hslot
  decide

end Patchouly.Managed
