import Patchouly.Managed.Atomicity
import Patchouly.Patch.Finish

/-!
# What finalizing a program returns

Every jump of a builder's block leads to a block of the builder, since `branch_prep` gives its target a
parent and panics where there is none (`jumpsBelow_of_reachable`). So no entry is left unresolved at the
end, and the result of `finalizeInto` is known before it runs: `PatchFunctionBuilder.verdict` reads it off
the marks, the pending jumps, the long jump and the allocator.
-/

set_option autoImplicit false

namespace Patchouly.Patch

open Patchouly.Lib Patchouly.Core

namespace PatchBlock

variable {MAX_REGS : Nat}

/-- The entries of the block name blocks below `n`. -/
def JumpsBelow (n : Nat) (b : PatchBlock MAX_REGS) : Prop :=
  ∀ d ∈ b.relocations, ∀ t, d.target = .block t → t.toNat < n

/-- The jumps of the call lead to blocks below `n`. -/
def NamesBelow (n : Nat) (c : Call MAX_REGS) : Prop :=
  ∀ t, JumpTarget.target t ∈ c.emission.jumps.toList → t.toNat < n

theorem target_of_filedFor {library : StencilLibrary MAX_REGS} {constants holes : List Usize}
    {jumps : List JumpTarget} {d : DelayedRelocation} {t : U16}
    (h : FiledFor library constants holes jumps d) (ht : d.target = .block t) :
    JumpTarget.target t ∈ jumps := by
  cases h with
  | block hi hj =>
      cases ht
      exact List.mem_of_getElem? hj
  | next hi hj => cases ht
  | runtime hs hlt => cases ht
  | constant hi hv hc => cases ht

theorem JumpsBelow.call {checks : Bool} {n : Nat} {b b' : PatchBlock MAX_REGS} {c : Call MAX_REGS}
    {res : Except PatchError Unit} (hi : b.JumpsBelow n) (hc : NamesBelow n c)
    (h : b.call checks c = some (res, b')) : b'.JumpsBelow n := by
  rcases call_cases h with ⟨e, -, ended, rfl⟩ | ⟨-, wide, settled, code, relocs, hcopy⟩
  · exact hi
  · obtain ⟨-, -, hrel, -⟩ := settleNext_cases hcopy.settle
    obtain ⟨new, hnew, -, hfiled⟩ := hcopy.effect.relocations
    intro d hd t ht
    rw [hnew] at hd
    rcases List.mem_append.1 hd with hd | hd
    · rw [show _ = b.relocations from hrel] at hd
      exact hi d hd t ht
    · exact hc t (target_of_filedFor (hfiled d hd).2.2 ht)

/-- In a run whose calls lead to blocks below `n` the entries do as well. -/
theorem jumpsBelow_of_guarded {checks : Bool} {n : Nat} {library : StencilLibrary MAX_REGS}
    {b : PatchBlock MAX_REGS}
    (h : ((blockSystem checks library).guard fun _ => NamesBelow n).Reachable b) : b.JumpsBelow n := by
  refine System.Reachable.invariant ?_ ?_ h
  · rintro _ rfl d hd
    cases hd
  · rintro b c b' - hi ⟨hc, res, hcall⟩
    exact hi.call hc hcall

/-- What keeps a block that has ended from being finalized. -/
def linkable (self : PatchBlock MAX_REGS) : Except PatchError Unit :=
  if ¬ self.nextRelocations.isEmpty then .error .invalidEnd
  else if ¬ self.runtimeTrampolineSymbols.isEmpty ∧ self.longJumpStencil = some none then
    .error .stencilNotFound
  else .ok ()

/-- With all its targets in the program, a block that has ended is refused for nothing else. -/
theorem verdict_of_jumpsBelow {b : PatchBlock MAX_REGS} {blocks : ProgramBlocks} (hended : b.ended = true)
    (h : b.JumpsBelow blocks.offsets.length) : b.verdict blocks = b.linkable := by
  have hresolved : b.relocations.any (unresolvedIn blocks) = false := by
    rw [List.any_eq_false]
    intro d hd
    rw [unresolvedIn]
    split
    · next t ht =>
      rw [ProgramBlocks.resolveTarget, List.getElem?_eq_getElem (h d hd t ht)]
      exact Bool.false_ne_true
    · exact Bool.false_ne_true
  rw [verdict, hresolved, hended, linkable]
  rfl

end PatchBlock

end Patchouly.Patch

namespace Patchouly.Managed

open Patchouly.Lib Patchouly.Core Patchouly.Patch PatchFunctionBuilder

variable {σ : Type → Type} {MAX_REGS : Nat}

/-! ## The targets of jumps -/

section Targets

/-- The targets of jumps that `branch_prep` gets past are blocks of the builder. -/
theorem prepJumps_targets {b b' : PatchFunctionBuilder σ MAX_REGS} {id : BlockId}
    {jumps : List JumpScope} {bad : Bool} (h : prepJumps id jumps b = some (bad, b')) :
    ∀ jump ∈ jumps, ∀ t ∈ jump.block?, t.toNat < b.blocks.length := by
  induction jumps generalizing b bad with
  | nil => exact fun jump hj => absurd hj List.not_mem_nil
  | cons first rest ih =>
      obtain ⟨bad₁, bad₂, mid, hfirst, hrest, -⟩ := prepJumps_cons h
      have hset : ∀ {block parent : BlockId} {c : PatchFunctionBuilder σ MAX_REGS},
          b.setParent block parent = some c → block.toNat < b.blocks.length := by
        intro block parent c hc
        obtain ⟨scope, hscope, -⟩ := setParent_eq_some hc
        exact (List.getElem?_eq_some_iff.1 hscope).1
      intro jump hj t ht
      rw [Option.mem_def] at ht
      rcases List.mem_cons.1 hj with rfl | hj
      · cases jump with
        | next => cases ht
        | child block =>
            obtain ⟨c, hc, -⟩ := Option.map_eq_some_iff.1 hfirst
            obtain rfl := Option.some.inj ht
            exact hset hc
        | same block =>
            obtain ⟨scope, -, hmap⟩ := Option.bind_eq_some_iff.1 hfirst
            obtain ⟨c, hc, -⟩ := Option.map_eq_some_iff.1 hmap
            obtain rfl := Option.some.inj ht
            exact hset hc
        | parent dest parent =>
            obtain ⟨c, hc, -⟩ := Option.map_eq_some_iff.1 hfirst
            obtain rfl := Option.some.inj ht
            exact hset hc
      · -- setting a parent keeps the number of blocks
        rw [← (prepJump_only hfirst).length]
        exact ih hrest jump hj t ht

variable [Slab σ]

/-- The jump targets of a block call are those of the operation. -/
theorem mem_jumps_of_blockCall {m : Machine σ MAX_REGS} {op : Op MAX_REGS} {id : BlockId}
    {c : Call MAX_REGS} (h : m.blockCall op = some (id, c)) {t : U16}
    (ht : JumpTarget.target t ∈ c.emission.jumps.toList) : ∃ jump ∈ op.jumps, t ∈ jump.block? := by
  have hmap : ∀ {JUMPS : Nat} {jumps : Vector JumpScope JUMPS},
      JumpTarget.target t ∈ (jumps.map JumpScope.target).toList → ∃ jump ∈ jumps.toList, t ∈ jump.block? := by
    intro JUMPS jumps hmem
    rw [Vector.toList_map] at hmem
    obtain ⟨jump, hjump, htarget⟩ := List.mem_map.1 hmem
    refine ⟨jump, hjump, ?_⟩
    cases jump with
    | next => cases htarget
    | child block => exact congrArg some (JumpTarget.target.inj htarget)
    | same block => exact congrArg some (JumpTarget.target.inj htarget)
    | parent dest parent => exact congrArg some (JumpTarget.target.inj htarget)
  cases op with
  | emit stencil inputs outputs holes =>
      simp only [Machine.blockCall, Option.bind_eq_bind, Option.pure_def] at h
      obtain ⟨i, -, h⟩ := Option.bind_eq_some_iff.1 h
      obtain ⟨ins, -, h⟩ := Option.bind_eq_some_iff.1 h
      obtain ⟨outs, -, h⟩ := Option.bind_eq_some_iff.1 h
      obtain ⟨-, rfl⟩ := Prod.mk.inj (Option.some.inj h)
      simp [Call.emission] at ht
  | branch stencil inputs outputs holes jumps =>
      simp only [Machine.blockCall, Option.bind_eq_bind] at h
      obtain ⟨i, -, h⟩ := Option.bind_eq_some_iff.1 h
      obtain ⟨ins, -, h⟩ := Option.bind_eq_some_iff.1 h
      obtain ⟨outs, -, h⟩ := Option.bind_eq_some_iff.1 h
      split at h
      · obtain ⟨-, rfl⟩ := Prod.mk.inj (Option.some.inj h)
        exact hmap ht
      · cases h
  | endBranch stencil inputs outputs holes jumps next =>
      simp only [Machine.blockCall, Option.bind_eq_bind] at h
      obtain ⟨i, -, h⟩ := Option.bind_eq_some_iff.1 h
      obtain ⟨ins, -, h⟩ := Option.bind_eq_some_iff.1 h
      obtain ⟨outs, -, h⟩ := Option.bind_eq_some_iff.1 h
      split at h
      · obtain ⟨-, rfl⟩ := Prod.mk.inj (Option.some.inj h)
        exact hmap ht
      · cases h
  | ret stencil inputs holes =>
      simp only [Machine.blockCall, Option.bind_eq_bind, Option.pure_def] at h
      obtain ⟨i, -, h⟩ := Option.bind_eq_some_iff.1 h
      obtain ⟨ins, -, h⟩ := Option.bind_eq_some_iff.1 h
      obtain ⟨-, rfl⟩ := Prod.mk.inj (Option.some.inj h)
      simp [Call.emission, nil] at ht
  | createBlock => cases h
  | switchToEntry => cases h
  | switchToBlock block => cases h
  | newParam => cases h
  | newVariable => cases h
  | drop => cases h

/-- The jumps of a block call lead to blocks that are there. -/
theorem namesBelow_of_blockCall {m : Machine σ MAX_REGS} {op : Op MAX_REGS} {id : BlockId}
    {c : Call MAX_REGS} (h : m.blockCall op = some (id, c)) :
    PatchBlock.NamesBelow m.builder.blocks.length c := by
  intro t ht
  obtain ⟨jump, hjump, hblock⟩ := mem_jumps_of_blockCall h ht
  obtain ⟨-, -, -, hpass⟩ := Machine.blockCall_spec h
  rw [jumpsPass] at hpass
  split at hpass
  · next b hb => exact prepJumps_targets hb jump hjump t hblock
  · cases hpass

variable [LawfulSlab σ]

/-- In a run that ends with at most `n` blocks, the calls lead to blocks below `n`. -/
theorem namesBelow_of_reachable {checks : Bool} {library : StencilLibrary MAX_REGS}
    {m : Machine σ MAX_REGS} (h : (machineSystem σ checks library).Reachable m) {n : Nat}
    (hn : m.builder.blocks.length ≤ n) :
    ((machineSystem σ checks library).guard (Meets fun _ => PatchBlock.NamesBelow n)).Reachable m := by
  induction h with
  | init h0 => exact .init h0
  | @step m m' op hm hstep ih =>
      obtain ⟨out, hexec⟩ := hstep
      -- no call takes a block away
      have hgrows : m.codes.length ≤ m'.codes.length := by
        cases (Machine.exec_code (sound_of_reachable hm) hexec).1 with
        | same hs => exact hs ▸ Nat.le_refl _
        | grown hg => rw [hg, List.length_append]; exact Nat.le_add_right _ _
        | called hcall hget hrun hset => rw [hset, List.length_set]
      rw [Machine.codes, Machine.codes, List.length_map, List.length_map] at hgrows
      refine .step op (ih (Nat.le_trans hgrows hn)) ⟨?_, out, hexec⟩
      rintro ⟨id, c⟩ hcall b hb t ht
      exact Nat.lt_of_lt_of_le (namesBelow_of_blockCall hcall t ht) (Nat.le_trans hgrows hn)

/-- **Every jump of a program leads to one of its blocks.** -/
theorem jumpsBelow_of_reachable {checks : Bool} {library : StencilLibrary MAX_REGS}
    {m : Machine σ MAX_REGS} (h : (machineSystem σ checks library).Reachable m) :
    ∀ b ∈ m.codes, b.JumpsBelow m.builder.blocks.length := by
  have hrun := namesBelow_of_reachable h (Nat.le_refl m.builder.blocks.length)
  intro b hb
  exact PatchBlock.jumpsBelow_of_guarded ((programOf_of_reachable hrun).blocks b hb)

end Targets

/-! ## The loops over the blocks -/

section Loops

variable {checks : Bool} {library : StencilLibrary MAX_REGS} {scopes : List (BlockScope MAX_REGS)}

/-- The lengths are measured up to the first block that has not ended. -/
theorem measureBlocks_total (hlong : SoundLongJump library)
    (hlibrary : ∀ scope ∈ scopes, scope.block.library = library) :
    measureBlocks scopes = some (if scopes.all (·.block.ended) then
      .ok (scopes.map (·.block.extent)) else .error .notEnded) := by
  induction scopes with
  | nil => rfl
  | cons scope rest ih =>
      rw [measureBlocks, PatchBlock.measure_total hlong (hlibrary scope List.mem_cons_self),
        ih fun s hs => hlibrary s (List.mem_cons_of_mem scope hs)]
      cases hended : scope.block.ended with
      | false => simp [hended]
      | true =>
          cases hrest : rest.all (·.block.ended) with
          | false => simp [hended, hrest]
          | true => simp [hended, hrest]

/-- The first error of a list of results. -/
def firstError : List (Except PatchError Unit) → Except PatchError Unit
  | [] => .ok ()
  | .error e :: _ => .error e
  | .ok () :: rest => firstError rest

/-- **The loop over the blocks** stops at the first block that is refused. -/
theorem finalizeBlocks_total {base : Usize} {offsets : ProgramBlocks} {i : Nat} {map : LoggedBuffer}
    (hblocks : ∀ scope ∈ scopes,
      ((blockSystem checks library).guard fun _ => SoundCall library).Reachable scope.block)
    (hlong : SoundLongJump library) (hbase : Addressable base map.bytes.length)
    (hoffsets : ∀ o ∈ offsets.offsets, o ≤ map.bytes.length)
    (hroom : ∀ (k : Nat) (scope : BlockScope MAX_REGS), scopes[k]? = some scope →
      ∃ off, offsets.offsets[i + k]? = some off ∧ off + scope.block.extent ≤ map.bytes.length) :
    ∃ map', finalizeBlocks checks base offsets i scopes map =
        some (firstError (scopes.map fun scope => scope.block.verdict offsets), map') ∧
      map'.bytes.length = map.bytes.length := by
  induction scopes generalizing i map with
  | nil => exact ⟨map, rfl, rfl⟩
  | cons scope rest ih =>
      obtain ⟨off, hoff, hfit⟩ := hroom 0 scope rfl
      obtain ⟨mid, hmid, hlen⟩ := PatchBlock.finalizeInto_total (hblocks scope List.mem_cons_self) hlong
        hfit hbase hoffsets
      rw [Nat.add_zero] at hoff
      rw [finalizeBlocks, hoff, Option.bind_eq_bind, Option.bind_some, hmid, Option.bind_eq_bind,
        Option.bind_some, List.map_cons]
      cases scope.block.verdict offsets with
      | error e => exact ⟨mid, rfl, hlen⟩
      | ok u =>
          obtain ⟨map', hmap', hlen'⟩ := @ih (i + 1) mid
            (fun s hs => hblocks s (List.mem_cons_of_mem scope hs)) (by rw [hlen]; exact hbase)
            (by rw [hlen]; exact hoffsets) (by
              intro k s hs
              rw [hlen, Nat.add_assoc, Nat.add_comm 1 k]
              exact hroom (k + 1) s hs)
          exact ⟨map', hmap', hlen'.trans hlen⟩

end Loops

/-! ## The result -/

namespace PatchFunctionBuilder

/-- The length of the whole program. -/
def programLen (self : PatchFunctionBuilder σ MAX_REGS) : Nat := (self.blocks.map (·.block.extent)).sum

/-- What finalizing returns, but for the bytes: the length of the program and the stack size, or the
first error. -/
def verdict (self : PatchFunctionBuilder σ MAX_REGS)
    (allocator : Nat → Except PatchError (LoggedBuffer × Usize)) : Except PatchError (Nat × U16) :=
  if self.blocks.all (·.block.ended) then do
    let _ ← allocator self.programLen
    firstError (self.blocks.map fun scope => scope.block.linkable)
    return (self.programLen, self.allocator.stackSize)
  else .error .notEnded

end PatchFunctionBuilder

section Result

variable [Slab σ] [LawfulSlab σ] {checks : Bool} {library : StencilLibrary MAX_REGS}
  {m : Machine σ MAX_REGS}

/-- **Finalizing a program.** Behind any calls of the interface whose emissions are sound, failed ones
included, `finalizeInto` does not panic in memory as long as the program and away from the end of the
address space, and it returns what `verdict` says. -/
theorem finalizeInto_verdict {allocator : Nat → Except PatchError (LoggedBuffer × Usize)}
    (hm : ((machineSystem σ checks library).guard (Meets fun _ => SoundCall library)).Reachable m)
    (hlong : SoundLongJump library)
    (hmemory : ∀ map base, allocator m.builder.programLen = .ok (map, base) →
      map.bytes.length = m.builder.programLen ∧ Addressable base m.builder.programLen) :
    ∃ res, m.builder.finalizeInto checks allocator = some res ∧
      res.map (fun out => (out.1.bytes.length, out.2)) = m.builder.verdict allocator := by
  have hprogram := programOf_of_reachable hm
  have hjumps := jumpsBelow_of_reachable hm.of_guard
  have hmem : ∀ scope ∈ m.builder.blocks, scope.block ∈ m.codes := fun scope hscope =>
    List.mem_map_of_mem hscope
  have hblocks : ∀ scope ∈ m.builder.blocks,
      ((blockSystem checks library).guard fun _ => SoundCall library).Reachable scope.block :=
    fun scope hscope => hprogram.blocks _ (hmem scope hscope)
  have hmeasure : measureBlocks m.builder.blocks = _ := measureBlocks_total hlong fun scope hscope =>
    library_of_reachable (hblocks scope hscope).of_guard
  rw [finalizeInto, hmeasure, verdict]
  cases hended : m.builder.blocks.all (·.block.ended) with
  | false => exact ⟨.error .notEnded, rfl, rfl⟩
  | true =>
      obtain ⟨hcount, hoffsets, htotal⟩ :=
        ProgramBlocks.fromLens_spec (m.builder.blocks.map (·.block.extent))
      rw [List.length_map] at hcount hoffsets
      have hlen : (ProgramBlocks.fromLens (m.builder.blocks.map (·.block.extent))).2 =
          m.builder.programLen := htotal
      simp only [if_true, Option.bind_eq_bind, Option.bind_some, hlen]
      cases hallocator : allocator m.builder.programLen with
      | error e => exact ⟨.error e, rfl, rfl⟩
      | ok memory =>
          obtain ⟨map, base⟩ := memory
          obtain ⟨hmap, hbase⟩ := hmemory map base hallocator
          obtain ⟨map', hmap', hlen'⟩ := @finalizeBlocks_total _ checks library m.builder.blocks base
            (ProgramBlocks.fromLens (m.builder.blocks.map (·.block.extent))).1 0 map hblocks hlong
            (by rw [hmap]; exact hbase) (by
              rw [hmap, ← hlen]
              exact fun o ho => ProgramBlocks.offset_le ho) (by
              -- a block starts where the blocks in front of it end
              intro k scope hscope
              refine ⟨_, by rw [Nat.zero_add]; exact hoffsets k (List.getElem?_eq_some_iff.1 hscope).1, ?_⟩
              rw [hmap, programLen]
              apply ProgramBlocks.take_sum_add_le
              rw [List.getElem?_map, hscope]
              rfl)
          have hlinkable : m.builder.blocks.map (fun scope => scope.block.verdict
                (ProgramBlocks.fromLens (m.builder.blocks.map (·.block.extent))).1) =
              m.builder.blocks.map fun scope => scope.block.linkable := by
            apply List.map_congr_left
            intro scope hscope
            apply PatchBlock.verdict_of_jumpsBelow (List.all_eq_true.1 hended scope hscope)
            rw [hcount]
            exact hjumps _ (hmem scope hscope)
          rw [hlinkable] at hmap'
          simp only [hmap', Option.bind_some]
          cases firstError (m.builder.blocks.map fun scope => scope.block.linkable) with
          | error e => exact ⟨.error e, rfl, rfl⟩
          | ok u =>
              refine ⟨.ok (map', m.builder.allocator.stackSize), rfl, ?_⟩
              rw [Except.map, hlen', hmap]
              rfl

end Result

end Patchouly.Managed
