import Patchouly.Managed.Alignment
import Patchouly.Managed.Ownership
import Patchouly.Managed.Parents

/-!
# Block ids

`create_block` cuts the number of blocks to 16 bits and subtracts one. A `Registry` is a machine with the
ids it has returned and the positions of the blocks that were pushed for them. `Names` says what makes an
id the name of a block: a switch to the id gives a handle on the block, a call through such a handle is
made on the block and leaves all other code alone, and a jump to the id is resolved to the offset of the
block.

The ids of a run are all different and name their own blocks as long as there are fewer than 65536 blocks
when a block is created (`block_ids`). After that they start again at the entry.
-/

set_option autoImplicit false

namespace Patchouly.Managed

open Patchouly.Lib Patchouly.Core Patchouly.Patch PatchFunctionBuilder Machine

variable {σ : Type → Type} {MAX_REGS : Nat} [Slab σ]

/-- The id a call returns, with the position of the block it pushes. -/
def Machine.created (checks : Bool) (m : Machine σ MAX_REGS) : Op MAX_REGS → List (BlockId × Nat)
  | .createBlock =>
      ((m.builder.createBlock checks).map fun (id, _) => (id, m.builder.blocks.length)).toList
  | _ => []

/-- A machine with the ids that `createBlock` has returned, each with the position of its block. -/
abbrev Registry (σ : Type → Type) (MAX_REGS : Nat) :=
  System.Recorded (Machine σ MAX_REGS) (BlockId × Nat)

/-- All sequences of calls on a new builder. -/
def registrySystem (σ : Type → Type) [Slab σ] (checks : Bool) (library : StencilLibrary MAX_REGS) :
    System (Registry σ MAX_REGS) (Op MAX_REGS) :=
  (machineSystem σ checks library).recorded (Machine.created checks)

/-- **The id names the block at a position.** -/
structure Names (checks : Bool) (m : Machine σ MAX_REGS) (id : BlockId) (pos : Nat) : Prop where
  inside : pos < m.codes.length
  switch : ∀ v m', m.exec checks (.switchToBlock id) = some (.ok v, m') → m'.handles.head? = some id
  calls : ∀ op c out m', m.blockCall op = some (id, c) → m.exec checks op = some (out, m') →
    ∃ block res block', m.codes[pos]? = some block ∧ block.call checks c = some (res, block') ∧
      m'.codes = m.codes.set pos block'
  others : m.handles.head? = some id → ∀ op out m', m.exec checks op = some (out, m') →
    ∀ i < m.codes.length, i ≠ pos → m'.codes[i]? = m.codes[i]?
  jumps : ∀ (allocator : Nat → Except PatchError (LoggedBuffer × Usize)) (lens : List Nat)
    (map map' : LoggedBuffer) (base : Usize) (stack : U16),
    m.builder.finalizeInto checks allocator = some (.ok (map', stack)) →
    measureBlocks m.builder.blocks = some (.ok lens) →
    allocator (ProgramBlocks.fromLens lens).2 = .ok (map, base) →
    ∀ (i : Nat) (b : PatchBlock MAX_REGS), m.codes[i]? = some b → ∃ off before after,
      (ProgramBlocks.fromLens lens).1.offsets[i]? = some off ∧
      b.finalizeInto checks base off before (ProgramBlocks.fromLens lens).1 = some (.ok (), after) ∧
      ∀ d ∈ b.relocations, d.target = .block id → ∃ offset,
        (ProgramBlocks.fromLens lens).1.offsets[pos]? = some offset ∧
        b.ResolvedTo base off (ProgramBlocks.fromLens lens).1 before after d
          (base + BitVec.ofNat 64 offset)

/-- The ids of a registry are different from each other and from the entry's, and each names the block
that was pushed for it. -/
structure Identified (checks : Bool) (r : Registry σ MAX_REGS) : Prop where
  distinct : (r.record.map (·.1)).Nodup
  entry : ∀ c ∈ r.record, c.1 ≠ 0
  names : ∀ c ∈ r.record, Names checks r.state c.1 c.2

/-- A block is created where there are fewer than 65536 blocks. -/
def HasRoom (r : Registry σ MAX_REGS) : Op MAX_REGS → Prop
  | .createBlock => r.state.builder.blocks.length < 65536
  | _ => True

instance (r : Registry σ MAX_REGS) : (op : Op MAX_REGS) → Decidable (HasRoom r op)
  | .createBlock => inferInstanceAs (Decidable (_ < _))
  | .switchToEntry | .switchToBlock _ | .newParam | .newVariable | .emit .. | .branch ..
  | .endBranch .. | .ret .. | .drop => .isTrue trivial

/-! ## One id -/

section Create

variable {checks : Bool} {b b' : PatchFunctionBuilder σ MAX_REGS} {id : BlockId}

omit [Slab σ] in
theorem createBlock_id (h : b.createBlock checks = some (id, b')) :
    id.toNat = b.blocks.length % 65536 := by
  obtain ⟨i, hi, hout⟩ := Option.map_eq_some_iff.1 h
  obtain ⟨rfl, -⟩ := Prod.mk.inj hout
  have hone : (1 : U16).toNat = 1 := by decide
  rw [eq_of_plainSub hi, BitVec.toNat_sub, BitVec.toNat_ofNat, hone, List.length_append,
    List.length_singleton]
  omega

omit [Slab σ] in
/-- **The id of a new block** belongs to no other block exactly when its position fits 16 bits. -/
theorem createBlock_id_iff (h : b.createBlock checks = some (id, b')) :
    b.blocks[id.toNat]? = none ↔ b.blocks.length < 65536 := by
  rw [createBlock_id h, List.getElem?_eq_none_iff]
  omega

omit [Slab σ] in
/-- With overflow checks no call returns the id behind the last one. -/
theorem ne_of_createBlock_true (h : b.createBlock true = some (id, b')) : b.blocks.length ≠ 65535 := by
  intro hlen
  have hnone : plainSub true (BitVec.ofNat 16 (b.blocks.length + 1)) 1 = none := by
    rw [hlen]
    decide
  obtain ⟨i, hi, -⟩ := Option.map_eq_some_iff.1 h
  rw [List.length_append, List.length_singleton, hnone] at hi
  cases hi

end Create

/-! ## Names -/

section Names

variable [LawfulSlab σ] {checks : Bool} {m m' : Machine σ MAX_REGS} {op : Op MAX_REGS}
  {out : Machine.Outcome} {id : BlockId} {pos : Nat}

/-- A call through a handle leaves the code of the other blocks alone. -/
theorem codes_of_exec (hs : m.builder.allocator.Sound) (h : m.exec checks op = some (out, m'))
    (hid : m.handles.head? = some id) {i : Nat} (hi : i < m.codes.length) (hne : i ≠ id.toNat) :
    m'.codes[i]? = m.codes[i]? := by
  cases (Machine.exec_code hs h).1 with
  | same hsame => rw [hsame]
  | grown hgrown => rw [hgrown, List.getElem?_append_left hi]
  | called hcall hget hrun hset =>
      obtain rfl : id = _ := Option.some.inj (hid.symm.trans (Machine.blockCall_spec hcall).2.1)
      rw [hset, List.getElem?_set_ne (Ne.symm hne)]

/-- A branch makes the call of its operation. -/
theorem made_of_branchWith {IN OUT JUMPS : Nat} {x : BlockId} {inputs : Vector Value IN}
    {outputs : Vector Value OUT} {jumps : Vector JumpScope JUMPS} {c : Call MAX_REGS}
    {f : Vector Location IN → Vector Location OUT → Vector JumpTarget JUMPS → Call MAX_REGS}
    {res : Except PatchError Unit} {b : PatchFunctionBuilder σ MAX_REGS}
    (hvis : Visible m.builder (inputs.toList ++ outputs.toList))
    (hpass : m.builder.jumpsPass x jumps.toList = true)
    (hf : ∀ ins outs, m.builder.lookup inputs = some ins → m.builder.lookup outputs = some outs →
      m.builder.jumpsPass x jumps.toList = true →
        m.blockCall op = some (x, f ins outs (jumps.map JumpScope.target)))
    (hcall : m.blockCall op = some (id, c))
    (h : m.builder.branchWith x inputs outputs jumps
      (fun ins outs targets s => s.call checks (f ins outs targets)) = some (res, b)) :
    ∃ block block', m.codes[id.toNat]? = some block ∧ block.call checks c = some (res, block') ∧
      b.blocks.map (·.block) = m.codes.set id.toNat block' := by
  rcases Machine.branchWith_cases h with
    ⟨e, -, ⟨-, hnot⟩ | ⟨-, hbad⟩⟩ | ⟨ins, outs, mid, hin, hout, hprep, hon⟩
  · exact absurd hvis hnot
  · rw [jumpsPass, hbad] at hpass
    cases hpass
  · rw [hf ins outs hin hout hpass] at hcall
    obtain ⟨rfl, rfl⟩ := Prod.mk.inj (Option.some.inj hcall)
    have hon := Machine.codes_of_onBlock hon
    rwa [(prepJumps_effect hprep).codes] at hon

/-- **The block call of an operation is made** on the block of its handle. -/
theorem made_of_exec (hs : m.builder.allocator.Sound) {c : Call MAX_REGS}
    (hcall : m.blockCall op = some (id, c)) (h : m.exec checks op = some (out, m')) :
    ∃ block res block', m.codes[id.toNat]? = some block ∧ block.call checks c = some (res, block') ∧
      m'.codes = m.codes.set id.toNat block' := by
  obtain ⟨-, hid, hvis, hpass⟩ := Machine.blockCall_spec hcall
  cases op with
  | emit stencil inputs outputs holes =>
      obtain ⟨x, hx, h1⟩ := Option.bind_eq_some_iff.1 h
      obtain ⟨⟨res, b⟩, hb, hout⟩ := Option.map_eq_some_iff.1 h1
      obtain ⟨rfl, -⟩ := Machine.value_of_stayed hout
      rcases emit_cases hb with ⟨e, -, -, hnot⟩ | ⟨ins, outs, hins, houts, hon⟩
      · exact absurd hvis hnot
      · rw [Machine.blockCall_emit hx (lookup_of_locations hins)
          (lookup_of_locations houts)] at hcall
        obtain ⟨rfl, rfl⟩ := Prod.mk.inj (Option.some.inj hcall)
        obtain ⟨block, block', hmade⟩ := Machine.codes_of_onBlock hon
        exact ⟨block, res, block', hmade⟩
  | branch stencil inputs outputs holes jumps =>
      obtain ⟨x, hx, h1⟩ := Option.bind_eq_some_iff.1 h
      obtain ⟨⟨res, b⟩, hb, hout⟩ := Option.map_eq_some_iff.1 h1
      obtain ⟨rfl, -⟩ := Machine.value_of_stayed hout
      obtain rfl : x = id := Option.some.inj (hx.symm.trans hid)
      obtain ⟨block, block', hmade⟩ := made_of_branchWith hvis hpass
        (f := fun ins outs targets => .branch stencil ins outs holes targets)
        (Machine.blockCall_branch hx) hcall hb
      exact ⟨block, res, block', hmade⟩
  | endBranch stencil inputs outputs holes jumps next =>
      obtain ⟨x, hx, h1⟩ := Option.bind_eq_some_iff.1 h
      obtain ⟨⟨res, b⟩, hb, hout⟩ := Option.map_eq_some_iff.1 h1
      obtain rfl := (Machine.passedOn_moved hout).builder
      obtain rfl : x = id := Option.some.inj (hx.symm.trans hid)
      obtain ⟨r, mid, hcode, hsame⟩ : ∃ r mid, m.builder.endBranchCode checks x stencil inputs outputs
          holes jumps = some (r, mid) ∧ m'.codes = mid.blocks.map (·.block) := by
        rcases endBranch_cases hb with ⟨e, -, hcode⟩ | ⟨mid, hcode, hswitch⟩
        · exact ⟨_, _, hcode, rfl⟩
        · have hq := (branchWith_effect hcode).1
          have hpoint : m.switchPoint checks (.endBranch stencil inputs outputs holes jumps next) =
              some (mid, next) := by
            simp only [Machine.switchPoint, hx, Option.bind_some, hcode]
          exact ⟨_, _, hcode, (Machine.change_of_switch checks _ hs hq hpoint hswitch).2.codes⟩
      obtain ⟨block, block', hmade⟩ := made_of_branchWith hvis hpass
        (f := fun ins outs targets => .endBranch stencil ins outs holes targets)
        (Machine.blockCall_endBranch hx) hcall hcode
      rw [hsame]
      exact ⟨block, r, block', hmade⟩
  | ret stencil inputs holes =>
      obtain ⟨x, hx, h1⟩ := Option.bind_eq_some_iff.1 h
      obtain ⟨⟨res, b⟩, hb, hout⟩ := Option.map_eq_some_iff.1 h1
      obtain ⟨rfl, -⟩ := Machine.value_of_stayed hout
      obtain rfl : x = id := Option.some.inj (hx.symm.trans hid)
      rcases ret_cases hb with ⟨e, -, -, hnot⟩ | ⟨ins, hins, hon⟩
      · exact absurd hvis hnot
      · have hret : m.blockCall (.ret stencil inputs holes) = some (x, .ret stencil ins holes) := by
          simp [Machine.blockCall, hx, lookup_of_locations hins]
        rw [hret] at hcall
        obtain ⟨-, rfl⟩ := Prod.mk.inj (Option.some.inj hcall)
        obtain ⟨block, block', hmade⟩ := Machine.codes_of_onBlock hon
        exact ⟨block, res, block', hmade⟩
  | _ => cases hcall

/-- The blocks after a call: as many as before, or one more that `createBlock` has pushed. -/
theorem length_of_exec (hs : m.builder.allocator.Sound) (h : m.exec checks op = some (out, m')) :
    m'.builder.blocks.length = m.builder.blocks.length ∨
      ∃ id, m.builder.createBlock checks = some (id, m'.builder) := by
  have hrun := Machine.exec_runs hs h
  generalize m'.builder = b at hrun ⊢
  generalize out.value = v at hrun
  have hsame : ∀ {b b' : PatchFunctionBuilder σ MAX_REGS},
      b'.blocks.map (·.block) = b.blocks.map (·.block) → b'.blocks.length = b.blocks.length := by
    intro b b' hcodes
    have hlen := congrArg List.length hcodes
    rwa [List.length_map, List.length_map] at hlen
  cases hrun with
  | idle hjumps => exact Or.inl rfl
  | created hjumps hcreate => exact Or.inr ⟨_, hcreate⟩
  | named hop hid hcode hnamed => exact Or.inl (hsame hcode.codes)
  | opened hjumps hpoint hswitch =>
      exact Or.inl (hsame (Machine.change_of_switch checks op hs (.refl _) hpoint hswitch).2.codes)
  | called hjumps hcall hon =>
      obtain ⟨-, -, -, scope, block, -, -, hblocks⟩ := onBlock_effect hon
      exact Or.inl (by rw [hblocks, List.length_set])
  | @branched _ _ _ _ _ _ _ _ _ mid _ hjumps hops hid hcall hbranch hend =>
      obtain ⟨hq, -, hcases⟩ := branchWith_effect hbranch
      -- a switch behind the branch leaves the code alone
      have hmid : b.blocks.length = mid.blocks.length := by
        rcases hend with rfl | ⟨block, r, hpoint, hswitch⟩
        · rfl
        · exact hsame (change_of_switch checks op hs hq hpoint hswitch).2.codes
      rw [hmid]
      left
      rcases hcases with hcodes | ⟨_, _, _, _, -, -, -, -, -, hset⟩
      · exact hsame hcodes
      · have hlen := congrArg List.length hset
        rwa [List.length_map, List.length_set, List.length_map] at hlen

/-- **The position of a block is its name.** -/
theorem names_of_toNat (hs : m.builder.allocator.Sound) (hpos : pos < m.codes.length)
    (hid : id.toNat = pos) : Names checks m id pos := by
  refine ⟨hpos, ?_, ?_, ?_, ?_⟩
  · intro v m' h
    obtain ⟨⟨res, b⟩, -, hout⟩ := Option.map_eq_some_iff.1 h
    cases res with
    | error e => cases (Prod.mk.inj hout).1
    | ok u =>
        obtain ⟨-, rfl⟩ := Prod.mk.inj hout
        rfl
  · intro op c out m' hcall h
    rw [← hid]
    exact made_of_exec hs hcall h
  · intro hhead op out m' h i hi hne
    exact codes_of_exec hs h hhead hi (hid ▸ hne)
  · intro allocator lens map map' base stack hfin hlens hmap i b hb
    have hloop := finalizeInto_ok hfin hlens hmap
    obtain ⟨log, -, hblocks⟩ := finalizeBlocks_ok hloop
    obtain ⟨scope, hscope, rfl⟩ := Option.map_eq_some_iff.1 (List.getElem?_map ▸ hb)
    obtain ⟨off, before, after, hoff, hdone, -⟩ := hblocks i scope hscope
    rw [Nat.zero_add] at hoff
    refine ⟨off, before, after, hoff, hdone, ?_⟩
    intro d hd htarget
    -- the block at `pos` has been finalized at its offset as well
    rw [Machine.codes, List.length_map] at hpos
    obtain ⟨offset, -, -, hoffset, -⟩ := hblocks pos _ (List.getElem?_eq_getElem hpos)
    rw [Nat.zero_add] at hoffset
    refine ⟨offset, hoffset, ?_⟩
    apply PatchBlock.resolvedTo_of_mem hdone (List.mem_append_left _ hd)
    rw [htarget, PatchBlock.entryTarget, ProgramBlocks.resolveTarget, hid, hoffset, Option.map_some]

end Names

/-! ## All runs -/

variable [LawfulSlab σ] {checks : Bool} {library : StencilLibrary MAX_REGS}

/-- **The invariant of runs with room**: the ids are the positions of the blocks behind the entry. -/
structure Positioned (r : Registry σ MAX_REGS) : Prop where
  pos : ∀ c ∈ r.record, c.1.toNat = c.2 ∧ 0 < c.2 ∧ c.2 < r.state.builder.blocks.length
  distinct : (r.record.map (·.1)).Nodup
  nonempty : 0 < r.state.builder.blocks.length

namespace Positioned

variable {r r' : Registry σ MAX_REGS} {op : Op MAX_REGS}

theorem start (h : (registrySystem σ checks library).init r) : Positioned r := by
  obtain ⟨b, hb, hstate⟩ := Option.map_eq_some_iff.1 h.1
  have hblocks : r.state.builder.blocks = [⟨.new library, none, []⟩] := by
    rw [← hstate]
    exact congrArg (·.blocks) (new_cases hb).2
  refine ⟨?_, ?_, ?_⟩
  · rw [h.2]
    intro c hc
    cases hc
  · rw [h.2]
    exact List.nodup_nil
  · rw [hblocks]
    exact Nat.one_pos

theorem created (h : Positioned r) {id : BlockId} {b : PatchFunctionBuilder σ MAX_REGS}
    (hcreate : r.state.builder.createBlock checks = some (id, b))
    (hroom : r.state.builder.blocks.length < 65536) :
    Positioned ⟨⟨b, r.state.handles⟩, r.record ++ [(id, r.state.builder.blocks.length)]⟩ := by
  obtain ⟨-, -, -, hblocks⟩ := createBlock_effect hcreate
  have hlen : b.blocks.length = r.state.builder.blocks.length + 1 := by
    rw [hblocks, List.length_append, List.length_singleton]
  have hid : id.toNat = r.state.builder.blocks.length := by
    rw [createBlock_id hcreate, Nat.mod_eq_of_lt hroom]
  refine ⟨?_, ?_, ?_⟩
  · intro c hc
    simp only [hlen]
    rcases List.mem_append.1 hc with hc | hc
    · obtain ⟨hpos, hzero, hlt⟩ := h.pos c hc
      exact ⟨hpos, hzero, Nat.lt_succ_of_lt hlt⟩
    · obtain rfl := List.mem_singleton.1 hc
      exact ⟨hid, h.nonempty, Nat.lt_succ_self _⟩
  · rw [List.map_append, List.nodup_append]
    refine ⟨h.distinct, List.nodup_singleton _, ?_⟩
    intro x hx y hy
    obtain ⟨c, hc, rfl⟩ := List.mem_map.1 hx
    obtain rfl := List.mem_singleton.1 hy
    -- an earlier id is an earlier position
    obtain ⟨hpos, -, hlt⟩ := h.pos c hc
    rintro heq
    rw [heq, hid] at hpos
    omega
  · simp only [hlen]
    exact Nat.succ_pos _

theorem next (h : Positioned r) (hs : r.state.builder.allocator.Sound) (hroom : HasRoom r op)
    (hn : (registrySystem σ checks library).step r op r') : Positioned r' := by
  obtain ⟨⟨out, hexec⟩, hrecord⟩ := hn
  obtain ⟨m', record'⟩ := r'
  obtain rfl : record' = _ := hrecord
  cases hcreated : r.state.created checks op with
  | cons c rest =>
      -- only `createBlock` returns an id
      cases op with
      | createBlock =>
          obtain ⟨⟨id, b⟩, hcreate, hout⟩ := Option.map_eq_some_iff.1 hexec
          obtain ⟨-, rfl⟩ := Prod.mk.inj hout
          rw [Machine.created, hcreate] at hcreated
          rw [← hcreated]
          exact h.created hcreate hroom
      | _ => cases hcreated
  | nil =>
      have hgrow : r.state.builder.blocks.length ≤ m'.builder.blocks.length := by
        rcases length_of_exec hs hexec with hlen | ⟨id, hcreate⟩
        · exact hlen.ge
        · rw [(createBlock_effect hcreate).2.2.2, List.length_append]
          exact Nat.le_add_right _ _
      rw [List.append_nil]
      refine ⟨?_, h.distinct, h.nonempty.trans_le hgrow⟩
      intro c hc
      obtain ⟨hpos, hzero, hlt⟩ := h.pos c hc
      exact ⟨hpos, hzero, hlt.trans_le hgrow⟩

theorem identified (h : Positioned r) (hs : r.state.builder.allocator.Sound) :
    Identified checks r := by
  refine ⟨h.distinct, ?_, ?_⟩
  · intro c hc hzero
    obtain ⟨hpos, hlt, -⟩ := h.pos c hc
    rw [hzero] at hpos
    exact absurd hpos.symm hlt.ne'
  · intro c hc
    obtain ⟨hpos, -, hlt⟩ := h.pos c hc
    exact names_of_toNat hs (by rw [Machine.codes, List.length_map]; exact hlt) hpos

end Positioned

theorem positioned_of_hasRoom {r : Registry σ MAX_REGS}
    (h : ((registrySystem σ checks library).guard HasRoom).Reachable r) : Positioned r := by
  refine System.Reachable.invariant ?_ ?_ h
  · exact fun r h0 => .start h0
  · rintro r op r' hr hpos ⟨hroom, hn⟩
    exact hpos.next (sound_of_reachable hr.of_guard.of_recorded) hroom hn

/-- With overflow checks there are fewer than 65536 blocks in every run: the subtraction panics on the
65536th. -/
theorem length_lt_of_checks {m : Machine σ MAX_REGS} (h : (machineSystem σ true library).Reachable m) :
    m.builder.blocks.length < 65536 := by
  induction h with
  | init h0 =>
      obtain ⟨b, hb, rfl⟩ := Option.map_eq_some_iff.1 h0
      rw [congrArg (·.blocks) (new_cases hb).2]
      simp
  | step op hm hstep ih =>
      obtain ⟨out, hexec⟩ := hstep
      rcases length_of_exec (sound_of_reachable hm) hexec with hlen | ⟨id, hcreate⟩
      · rw [hlen]
        exact ih
      · have hne := ne_of_createBlock_true hcreate
        rw [(createBlock_effect hcreate).2.2.2, List.length_append, List.length_singleton]
        omega

/-- **Block ids.** In every run that creates its blocks while there is room the ids are all different and
name their own blocks, and the id of the next block belongs to no other block exactly when there is room
for it. With overflow checks there always is. -/
theorem block_ids (checks : Bool) (library : StencilLibrary MAX_REGS) :
    (∀ r : Registry σ MAX_REGS,
      ((registrySystem σ checks library).guard HasRoom).Reachable r →
        Identified checks r ∧ ∀ id b', r.state.builder.createBlock checks = some (id, b') →
          (r.state.builder.blocks[id.toNat]? = none ↔ r.state.builder.blocks.length < 65536)) ∧
    (checks = true → ∀ r : Registry σ MAX_REGS, (registrySystem σ checks library).Reachable r →
      ∀ op, HasRoom r op) := by
  constructor
  · intro r hr
    exact ⟨(positioned_of_hasRoom hr).identified (sound_of_reachable hr.of_guard.of_recorded),
      fun id b' h => createBlock_id_iff h⟩
  · rintro rfl r hr op
    cases op with
    | createBlock => exact length_lt_of_checks hr.of_recorded
    | _ => trivial

/-- The registry after a list of calls that have room. -/
def roomyRunOf (library : StencilLibrary MAX_REGS) (ops : List (Op MAX_REGS)) :
    Option (Registry VecSlab MAX_REGS) :=
  recordedRunOf (Machine.created true) HasRoom library ops

/-- Two blocks that are created on both sides of a call. -/
theorem block_ids_two : ∃ r, roomyRunOf sampleLibrary [.createBlock, .switchToEntry, .createBlock] =
    some r ∧ r.record = [(1, 1), (2, 2)] ∧ Identified true r := by
  have hrun : (roomyRunOf sampleLibrary [.createBlock, .switchToEntry, .createBlock]).map (·.record) =
      some [(1, 1), (2, 2)] := by
    decide +kernel
  obtain ⟨r, hr, hids⟩ := Option.map_eq_some_iff.1 hrun
  have hreach := reachable_of_recordedRunOf (fun _ _ _ h => h) hr
  exact ⟨r, hr, hids, ((block_ids true sampleLibrary).1 r hreach).1⟩

/-- A run of `n` creations without overflow checks. -/
theorem exists_created (n : Nat) : ∃ r : Registry VecSlab 1,
    (registrySystem VecSlab false sampleLibrary).Reachable r ∧
      r.state.builder.blocks.length = n + 1 := by
  induction n with
  | zero =>
      obtain ⟨b, hb⟩ : ∃ b, PatchFunctionBuilder.new (σ := VecSlab) sampleLibrary = some b :=
        Option.isSome_iff_exists.1 (by decide +kernel)
      refine ⟨⟨⟨b, []⟩, []⟩, .init ⟨Option.map_eq_some_iff.2 ⟨b, hb, rfl⟩, rfl⟩, ?_⟩
      rw [congrArg (·.blocks) (new_cases hb).2]
      rfl
  | succ n ih =>
      obtain ⟨r, hr, hlen⟩ := ih
      refine ⟨⟨_, _⟩, .step .createBlock hr ⟨⟨_, rfl⟩, rfl⟩, ?_⟩
      simp [hlen]

/-- The block behind the last id gets the entry's. -/
theorem not_block_ids : ¬ ∀ r : Registry VecSlab 1,
    (registrySystem VecSlab false sampleLibrary).Reachable r → Identified false r := by
  intro hall
  obtain ⟨r, hr, hlen⟩ := exists_created 65535
  obtain ⟨id, b, hcreate⟩ : ∃ id b, r.state.builder.createBlock false = some (id, b) := ⟨_, _, rfl⟩
  have hid : id = 0 := by
    apply BitVec.eq_of_toNat_eq
    rw [createBlock_id hcreate, hlen]
    rfl
  have hexec : r.state.exec false .createBlock = some (.ok none, ⟨b, r.state.handles⟩) := by
    rw [exec, hcreate]
    rfl
  have hcreated : r.state.created false .createBlock = [(id, r.state.builder.blocks.length)] := by
    rw [Machine.created, hcreate]
    rfl
  have hnext := hall ⟨_, _⟩ (.step _ hr ⟨⟨_, hexec⟩, rfl⟩)
  refine hnext.entry (id, r.state.builder.blocks.length) ?_ hid
  rw [hcreated]
  exact List.mem_append_right _ List.mem_cons_self

end Patchouly.Managed
