import Patchouly.Managed.Steps
import Patchouly.Patch.Layout
import Patchouly.Patch.Rebase
import Mathlib.Data.List.Forall2

/-!
# The blocks of a program

Every block of a builder comes from a run of `PatchBlock` calls (`programOf_of_reachable`), so what
is known of such runs holds of all blocks of a program. `laidOut_of_tidy` puts the pieces together:
the offsets of `fromLens` are the sums of the measured lengths, and a block that is finalized at its
offset stays in its own range.
-/

set_option autoImplicit false

namespace Patchouly.Managed

open Patchouly.Lib Patchouly.Core Patchouly.Patch PatchFunctionBuilder

section Runs

variable {σ : Type → Type} [Slab σ] {MAX_REGS : Nat}

/-- All sequences of calls on a new builder. -/
def machineSystem (σ : Type → Type) [Slab σ] (checks : Bool) (library : StencilLibrary MAX_REGS) :
    System (Machine σ MAX_REGS) (Op MAX_REGS) where
  init m := (PatchFunctionBuilder.new library).map (fun builder => ⟨builder, []⟩) = some m
  step m op m' := ∃ out, m.exec checks op = some (out, m')

/-- The `PatchBlock` call of the operation, if it makes one, meets `G`. -/
def Meets (G : PatchBlock MAX_REGS → Call MAX_REGS → Prop) (m : Machine σ MAX_REGS)
    (op : Op MAX_REGS) : Prop :=
  ∀ p ∈ m.blockCall op, ∀ b ∈ m.codes[p.1.toNat]?, G b p.2

instance (G : PatchBlock MAX_REGS → Call MAX_REGS → Prop) [∀ b c, Decidable (G b c)]
    (m : Machine σ MAX_REGS) (op : Op MAX_REGS) : Decidable (Meets G m op) :=
  inferInstanceAs (Decidable (∀ p ∈ m.blockCall op, ∀ b ∈ m.codes[p.1.toNat]?, _))

variable [LawfulSlab σ]

theorem sound_of_reachable {checks : Bool} {library : StencilLibrary MAX_REGS} {m : Machine σ MAX_REGS}
    (h : (machineSystem σ checks library).Reachable m) : m.builder.allocator.Sound := by
  induction h with
  | init h0 =>
      obtain ⟨b, hb, rfl⟩ := Option.map_eq_some_iff.1 h0
      exact (new_cases hb).1
  | step op hm hstep ih =>
      obtain ⟨out, hexec⟩ := hstep
      exact (Machine.exec_change ih hexec).sound ih

/-- What holds of the blocks in a run whose block calls meet `G`. -/
structure ProgramOf (G : PatchBlock MAX_REGS → Call MAX_REGS → Prop) (checks : Bool)
    (library : StencilLibrary MAX_REGS) (m : Machine σ MAX_REGS) : Prop where
  sound : m.builder.allocator.Sound
  blocks : ∀ b ∈ m.codes, ((blockSystem checks library).guard G).Reachable b
  library : m.builder.library = library

/-- **Every block of a builder comes from a run of its own**, and its calls meet what the calls of
the builder's run meet. -/
theorem programOf_of_reachable {G : PatchBlock MAX_REGS → Call MAX_REGS → Prop} {checks : Bool}
    {library : StencilLibrary MAX_REGS} {m : Machine σ MAX_REGS}
    (h : ((machineSystem σ checks library).guard (Meets G)).Reachable m) :
    ProgramOf G checks library m := by
  refine System.Reachable.invariant ?_ ?_ h
  · intro m h0
    obtain ⟨b, hb, rfl⟩ := Option.map_eq_some_iff.1 h0
    obtain ⟨hsound, hnew⟩ := new_cases hb
    refine ⟨hsound, ?_, congrArg (·.library) hnew⟩
    rw [Machine.codes, congrArg (·.blocks) hnew]
    intro b hb
    obtain rfl := List.mem_singleton.1 hb
    exact .init rfl
  · rintro m op m' - hi ⟨ht, out, hexec⟩
    obtain ⟨hcode, hlib⟩ := Machine.exec_code hi.sound hexec
    refine ⟨(Machine.exec_change hi.sound hexec).sound hi.sound, ?_, hlib.trans hi.library⟩
    intro b hb
    cases hcode with
    | same hs =>
        rw [hs] at hb
        exact hi.blocks b hb
    | grown hg =>
        rw [hg] at hb
        rcases List.mem_append.1 hb with hb | hb
        · exact hi.blocks b hb
        · obtain rfl := List.mem_singleton.1 hb
          rw [hi.library]
          exact .init rfl
    | called hcall hget hrun hset =>
        -- the block of the handle makes one step of its own
        rw [hset] at hb
        rcases List.mem_or_eq_of_mem_set hb with hb | rfl
        · exact hi.blocks b hb
        · exact .step _ (hi.blocks _ (List.mem_of_getElem? hget)) ⟨ht _ hcall _ hget, _, hrun⟩

/-- The same without a condition on the calls. -/
theorem block_of_reachable {checks : Bool} {library : StencilLibrary MAX_REGS}
    {m : Machine σ MAX_REGS} (h : (machineSystem σ checks library).Reachable m) :
    ∀ b ∈ m.codes, (blockSystem checks library).Reachable b := by
  have hfree : ((machineSystem σ checks library).guard (Meets fun _ _ => True)).Reachable m :=
    h.guard_of_forall fun _ _ _ _ _ _ => trivial
  intro b hb
  exact ((programOf_of_reachable hfree).blocks b hb).of_guard

end Runs

/-! ## The layout of a program -/

/-- The offsets of the blocks with the lengths `lens`, and what finalizing a block at its offset
does to a map of the total length. -/
structure LaidOut {MAX_REGS : Nat} (checks : Bool) (blocks : List (PatchBlock MAX_REGS))
    (lens : List Nat) : Prop where
  count : (ProgramBlocks.fromLens lens).1.offsets.length = blocks.length
  offsets : ∀ i < blocks.length,
    (ProgramBlocks.fromLens lens).1.offsets[i]? = some (lens.take i).sum
  total : (ProgramBlocks.fromLens lens).2 = lens.sum
  framed : ∀ (i off len : Nat) (b : PatchBlock MAX_REGS) (base : Usize) (map map' : LoggedBuffer),
    blocks[i]? = some b → (ProgramBlocks.fromLens lens).1.offsets[i]? = some off →
    b.measure = some (some len) → map.bytes.length = (ProgramBlocks.fromLens lens).2 →
    b.finalizeInto checks base off map (ProgramBlocks.fromLens lens).1 = some (.ok (), map') →
      off + len ≤ (ProgramBlocks.fromLens lens).2 ∧ b.Framed off len map map'

/-- **Layout and frame**, for blocks of tidy runs, on their own or in a builder. -/
theorem laidOut_of_tidy {σ : Type → Type} [Slab σ] [LawfulSlab σ] {MAX_REGS : Nat} {checks : Bool}
    {library : StencilLibrary MAX_REGS} {blocks : List (PatchBlock MAX_REGS)} {lens : List Nat}
    (hblocks : (∀ b ∈ blocks, TidyBlock checks library b) ∨
      ∃ m, ((machineSystem σ checks library).guard (Meets (TidyCall checks))).Reachable m ∧
        m.codes = blocks)
    (hlong : PatchBlock.LongJumpInside library)
    (hlens : List.Forall₂ (fun b len => b.measure = some (some len)) blocks lens) :
    LaidOut checks blocks lens := by
  have htidy : ∀ b ∈ blocks, TidyBlock checks library b := by
    rcases hblocks with h | ⟨m, hm, rfl⟩
    · exact h
    · exact (programOf_of_reachable hm).blocks
  have hcount := hlens.length_eq
  obtain ⟨hlength, hoffsets, htotal⟩ := ProgramBlocks.fromLens_spec lens
  refine ⟨hlength.trans hcount.symm, fun i hi => hoffsets i (by omega), htotal, ?_⟩
  intro i off len b base map map' hb hoff hlen hmap hfin
  have hi := (List.getElem?_eq_some_iff.1 hb).1
  -- the block's measured length is the `i`-th of the list
  have hleni : lens[i]? = some len := by
    have hget := hlens.get hi (hcount ▸ hi)
    rw [List.get_eq_getElem, List.get_eq_getElem, (List.getElem?_eq_some_iff.1 hb).2, hlen] at hget
    rw [List.getElem?_eq_getElem (hcount ▸ hi), ← Option.some.inj (Option.some.inj hget)]
  have hrun := htidy b (List.mem_of_getElem? hb)
  rw [hoffsets i (by omega)] at hoff
  obtain rfl := Option.some.inj hoff
  refine ⟨?_, ?_⟩
  · rw [htotal]
    exact ProgramBlocks.take_sum_add_le lens hleni
  · apply PatchBlock.framed_of_finalizeInto (inCode_of_tidy hrun) _ hlen hfin
    rw [library_of_reachable hrun.of_guard]
    exact hlong

/-! ## Position independence -/

section Position

variable {σ : Type → Type} [Slab σ] {MAX_REGS : Nat} {checks : Bool} {base : Usize}

/-- The loop over the blocks at `base` and at 0. -/
theorem finalizeBlocks_base {offsets : ProgramBlocks} {i : Nat} {scopes : List (BlockScope MAX_REGS)}
    {map : LoggedBuffer} (hbase : Addressable base map.bytes.length)
    (hoffsets : ∀ o ∈ offsets.offsets, o ≤ map.bytes.length)
    (hrel : ∀ scope ∈ scopes, ∀ d ∈ scope.block.relocations, d.relocation.relative = true)
    (hlong : ∀ scope ∈ scopes, PatchBlock.LongJumpRelative scope.block.library)
    (hslots : ∀ scope ∈ scopes, scope.block.PoolIndices) :
    finalizeBlocks checks base offsets i scopes map =
      finalizeBlocks false 0 offsets i scopes map := by
  induction scopes generalizing i map with
  | nil => rfl
  | cons scope rest ih =>
      simp only [finalizeBlocks, Option.bind_eq_bind]
      apply Option.bind_congr
      intro off hoff
      -- the block's own writes do not depend on the base
      rw [PatchBlock.finalizeInto_base hbase (hoffsets off (List.mem_of_getElem? hoff)) hoffsets
        (PatchBlock.delayedEntries_relative (hrel scope List.mem_cons_self)
          (hlong scope List.mem_cons_self)) (hslots scope List.mem_cons_self)]
      apply Option.bind_congr
      rintro ⟨res, map'⟩ hfin
      cases res with
      | error e => rfl
      | ok u =>
          -- the map keeps its length, so the rest of the loop is in the same case
          have hlen : map'.bytes.length = map.bytes.length :=
            applyWrites_length (PatchBlock.finalizeInto_ok hfin).2.2.2.1.bytes
          apply ih
          · rw [hlen]
            exact hbase
          · rw [hlen]
            exact hoffsets
          · exact fun s hs => hrel s (List.mem_cons_of_mem _ hs)
          · exact fun s hs => hlong s (List.mem_cons_of_mem _ hs)
          · exact fun s hs => hslots s (List.mem_cons_of_mem _ hs)

variable [LawfulSlab σ]

/-- A finalized vector at a given base is the vector at base 0. -/
theorem finalizeIntoVec_base {library : StencilLibrary MAX_REGS} {m : Machine σ MAX_REGS}
    {address : Usize} (hm : (machineSystem σ checks library).Reachable m)
    (hrel : ∀ b ∈ m.codes, ∀ d ∈ b.relocations, d.relocation.relative = true)
    (hlong : PatchBlock.LongJumpRelative library)
    (hbase : ∀ lens, measureBlocks m.builder.blocks = some (.ok lens) →
      Addressable base (ProgramBlocks.fromLens lens).2) :
    m.builder.finalizeIntoVec checks address (some base) =
      m.builder.finalizeIntoVec false address (some 0) := by
  have hrun := block_of_reachable hm
  simp only [finalizeIntoVec, PatchFunctionBuilder.finalizeInto, Option.bind_eq_bind,
    Option.getD_some]
  congr 1
  apply Option.bind_congr
  intro res hres
  cases res with
  | error e => rfl
  | ok lens =>
      have hcodes : ∀ scope ∈ m.builder.blocks, scope.block ∈ m.codes :=
        fun scope hscope => List.mem_map_of_mem hscope
      -- the vector is as long as all blocks together, whatever the base
      have hmap : (⟨List.replicate (ProgramBlocks.fromLens lens).2 0, []⟩ :
          LoggedBuffer).bytes.length = (ProgramBlocks.fromLens lens).2 := List.length_replicate
      have hloop : finalizeBlocks checks base (ProgramBlocks.fromLens lens).1 0 m.builder.blocks
            ⟨List.replicate (ProgramBlocks.fromLens lens).2 0, []⟩ =
          finalizeBlocks false 0 (ProgramBlocks.fromLens lens).1 0 m.builder.blocks
            ⟨List.replicate (ProgramBlocks.fromLens lens).2 0, []⟩ := by
        apply finalizeBlocks_base
        · rw [hmap]
          exact hbase lens hres
        · rw [hmap]
          exact fun o ho => ProgramBlocks.offset_le ho
        · exact fun scope hscope => hrel _ (hcodes scope hscope)
        · intro scope hscope
          rw [library_of_reachable (hrun _ (hcodes scope hscope))]
          exact hlong
        · exact fun scope hscope =>
            PatchBlock.poolIndices_of_reachable (hrun _ (hcodes scope hscope))
      simp only [hloop]

/-- **Position independence**: two bases give the same vector and stack size, or the same error. -/
theorem finalizeIntoVec_position {library : StencilLibrary MAX_REGS} {m : Machine σ MAX_REGS}
    {address base₁ base₂ : Usize} (hm : (machineSystem σ checks library).Reachable m)
    (hrel : ∀ b ∈ m.codes, ∀ d ∈ b.relocations, d.relocation.relative = true)
    (hlong : PatchBlock.LongJumpRelative library)
    (hbase₁ : ∀ lens, measureBlocks m.builder.blocks = some (.ok lens) →
      Addressable base₁ (ProgramBlocks.fromLens lens).2)
    (hbase₂ : ∀ lens, measureBlocks m.builder.blocks = some (.ok lens) →
      Addressable base₂ (ProgramBlocks.fromLens lens).2) :
    m.builder.finalizeIntoVec checks address (some base₁) =
      m.builder.finalizeIntoVec checks address (some base₂) := by
  rw [finalizeIntoVec_base hm hrel hlong hbase₁, finalizeIntoVec_base hm hrel hlong hbase₂]

end Position

/-! ## A program with a runtime call -/

/-- A call and a jump in the entry, a return in its child. The call's own jump is cut off. -/
def callOps : List (Op 1) :=
  [.createBlock, .switchToEntry, .emit callFamily nil nil nil,
    .endBranch jumpFamily nil nil nil (.singleton (.child 1)) 1, .ret retFamily nil nil]

section Computed

variable {MAX_REGS : Nat} {library : StencilLibrary MAX_REGS} {ops : List (Op MAX_REGS)}

/-- The machine after one call. -/
def Machine.after (m : Machine VecSlab MAX_REGS) (op : Op MAX_REGS) : Option (Machine VecSlab MAX_REGS) :=
  (m.exec true op).map (·.2)

theorem Machine.step_of_after {m m' : Machine VecSlab MAX_REGS} {op : Op MAX_REGS}
    (h : m.after op = some m') : (machineSystem VecSlab true library).step m op m' := by
  obtain ⟨⟨out, m''⟩, hexec, rfl⟩ := Option.map_eq_some_iff.1 h
  exact ⟨out, hexec⟩

/-- The machine after a list of calls on a new builder, stopping at one that does not meet `G`. -/
def machineRunOf (G : Machine VecSlab MAX_REGS → Op MAX_REGS → Prop) [∀ m op, Decidable (G m op)]
    (library : StencilLibrary MAX_REGS) (ops : List (Op MAX_REGS)) : Option (Machine VecSlab MAX_REGS) :=
  ((PatchFunctionBuilder.new library).map fun builder => ⟨builder, []⟩).bind
    (System.runGuarded Machine.after (fun m op => decide (G m op)) ops)

theorem reachable_of_machineRunOf {G G' : Machine VecSlab MAX_REGS → Op MAX_REGS → Prop}
    [∀ m op, Decidable (G m op)] {m : Machine VecSlab MAX_REGS}
    (hG : ∀ m, ∀ op ∈ ops, G m op → G' m op) (h : machineRunOf G library ops = some m) :
    ((machineSystem VecSlab true library).guard G').Reachable m := by
  obtain ⟨m₀, h₀, hrest⟩ := Option.bind_eq_some_iff.1 h
  exact System.reachable_of_runGuarded_mem (fun _ _ _ => Machine.step_of_after)
    (fun m op hop hok => hG m op hop (of_decide_eq_true hok)) (.init h₀) hrest

/-- The same with a record. -/
def recordedRunOf {β : Type} (out : Machine VecSlab MAX_REGS → Op MAX_REGS → List β)
    (G : System.Recorded (Machine VecSlab MAX_REGS) β → Op MAX_REGS → Prop)
    [∀ r op, Decidable (G r op)] (library : StencilLibrary MAX_REGS) (ops : List (Op MAX_REGS)) :
    Option (System.Recorded (Machine VecSlab MAX_REGS) β) :=
  ((PatchFunctionBuilder.new library).map fun builder => ⟨⟨builder, []⟩, []⟩).bind
    (System.runGuarded (System.Recorded.next Machine.after out) (fun r op => decide (G r op)) ops)

theorem reachable_of_recordedRunOf {β : Type} {out : Machine VecSlab MAX_REGS → Op MAX_REGS → List β}
    {G G' : System.Recorded (Machine VecSlab MAX_REGS) β → Op MAX_REGS → Prop}
    [∀ r op, Decidable (G r op)] {r : System.Recorded (Machine VecSlab MAX_REGS) β}
    (hG : ∀ r, ∀ op ∈ ops, G r op → G' r op) (h : recordedRunOf out G library ops = some r) :
    (((machineSystem VecSlab true library).recorded out).guard G').Reachable r := by
  obtain ⟨r₀, h₀, hrest⟩ := Option.bind_eq_some_iff.1 h
  obtain ⟨b, hb, rfl⟩ := Option.map_eq_some_iff.1 h₀
  exact System.reachable_of_runGuarded_mem
    (fun _ _ _ => System.Recorded.step_of_next fun _ _ _ => Machine.step_of_after)
    (fun r op hop hok => hG r op hop (of_decide_eq_true hok))
    (.init ⟨Option.map_eq_some_iff.2 ⟨b, hb, rfl⟩, rfl⟩) hrest

/-- The machine after tidy calls. -/
def tidyRunOf (library : StencilLibrary MAX_REGS) (ops : List (Op MAX_REGS)) :
    Option (Machine VecSlab MAX_REGS) :=
  machineRunOf (Meets (TidyCall true)) library ops

end Computed

theorem laidOut_call : ∃ m, tidyRunOf sampleLibrary callOps = some m ∧
    m.codes.map (·.measure) = [some (some 24), some (some 1)] ∧ LaidOut true m.codes [24, 1] := by
  have hrun : (tidyRunOf sampleLibrary callOps).map (fun m => m.codes.map (·.measure)) =
      some [some (some 24), some (some 1)] := by
    decide +kernel
  obtain ⟨m, hm, hmeasure⟩ := Option.map_eq_some_iff.1 hrun
  refine ⟨m, hm, hmeasure, laidOut_of_tidy (Or.inr ⟨m, reachable_of_machineRunOf (fun _ _ _ h => h) hm, rfl⟩)
    ?_ ?_⟩
  · decide +kernel
  · have hpairs : List.Forall₂ (fun measured len => measured = some (some len))
        (m.codes.map (·.measure)) [24, 1] := by
      rw [hmeasure]
      exact .cons rfl (.cons rfl .nil)
    exact List.forall₂_map_left_iff.1 hpairs

/-- The bytes of the program at a base: a call of the trampoline at 10, a jump to the block at 24,
the trampoline's jump through the slot at 16, the slot, and the return. -/
def callBytes : List U8 :=
  [0xE8, 5, 0, 0, 0, 0xE9, 14, 0, 0, 0, 0xFF, 0x25, 0, 0, 0, 0, 0x9A, 0x78, 0x56, 0x34, 0x12, 0, 0,
    0, 0xC3]

theorem finalizeIntoVec_call : ∃ m, tidyRunOf sampleLibrary callOps = some m ∧
    (m.builder.finalizeIntoVec true 0 (some 0x1000)).map Except.toOption =
      some (some (callBytes, 0)) ∧
    m.builder.finalizeIntoVec true 0 (some 0x1000) =
      m.builder.finalizeIntoVec true 0 (some 0x7F0000000000) := by
  have hrun : (tidyRunOf sampleLibrary callOps).map (fun m =>
      ((m.builder.finalizeIntoVec true 0 (some 0x1000)).map Except.toOption,
        (m.codes.all fun b => b.relocations.all fun d => d.relocation.relative) &&
          decide ((measureBlocks m.builder.blocks).map Except.toOption = some (some [24, 1])))) =
            some (some (some (callBytes, 0)), true) := by
    decide +kernel
  obtain ⟨m, hm, hstate⟩ := Option.map_eq_some_iff.1 hrun
  obtain ⟨hbytes, hrel, hlens⟩ : _ ∧ _ ∧ _ := by
    simpa only [Prod.mk.injEq, Bool.and_eq_true, decide_eq_true_eq] using hstate
  have hlen : ∀ lens, measureBlocks m.builder.blocks = some (.ok lens) → lens = [24, 1] := by
    intro lens hl
    rw [hl] at hlens
    exact Option.some.inj (Option.some.inj hlens)
  refine ⟨m, hm, hbytes,
    finalizeIntoVec_position (reachable_of_machineRunOf (fun _ _ _ h => h) hm).of_guard ?_
      (by decide +kernel) ?_ ?_⟩
  · simpa only [List.all_eq_true] using hrel
  · intro lens hl
    rw [hlen lens hl]
    decide
  · intro lens hl
    rw [hlen lens hl]
    decide

end Patchouly.Managed
