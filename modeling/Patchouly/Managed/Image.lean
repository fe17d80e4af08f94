import Patchouly.Managed.Pipeline
import Patchouly.Patch.Image

/-!
# The image of a program

`emitted` records which stencils a run of the builder copies, and into which blocks. The blocks of a
program are finalized one behind the other and keep out of each other's ranges, so in the finished program
each block still is the image of its own stencils (`program_image`): the control flow of the bytes is the one
that the client asked for, call by call.
-/

set_option autoImplicit false

namespace Patchouly.Managed

open Patchouly.Lib Patchouly.Core Patchouly.Patch Patchouly.Build PatchFunctionBuilder

/-! ## The loop over the blocks -/

section Loop

variable {MAX_REGS : Nat} {checks : Bool} {library : StencilLibrary MAX_REGS} {base : Usize}
  {offsets : ProgramBlocks} {i : Nat} {scopes : List (BlockScope MAX_REGS)} {map map' : LoggedBuffer}

/-- The blocks have sound states. -/
def SoundScopes (library : StencilLibrary MAX_REGS) (scopes : List (BlockScope MAX_REGS)) : Prop :=
  ∀ scope ∈ scopes, ∃ stencils, SoundState library ⟨scope.block, stencils⟩

/-- One round of the loop. -/
theorem finalizeBlocks_cons {scope : BlockScope MAX_REGS}
    (h : finalizeBlocks checks base offsets i (scope :: scopes) map = some (.ok (), map')) :
    ∃ off mid, offsets.offsets[i]? = some off ∧
      scope.block.finalizeInto checks base off map offsets = some (.ok (), mid) ∧
        finalizeBlocks checks base offsets (i + 1) scopes mid = some (.ok (), map') := by
  rw [finalizeBlocks, Option.bind_eq_bind] at h
  obtain ⟨off, hoff, h⟩ := Option.bind_eq_some_iff.1 h
  obtain ⟨⟨res, mid⟩, hfin, h⟩ := Option.bind_eq_some_iff.1 h
  cases res with
  | error e => cases h
  | ok u => exact ⟨off, mid, hoff, hfin, h⟩

/-- The loop leaves the bytes outside the ranges of the blocks alone. -/
theorem finalizeBlocks_frame (hlong : SoundLongJump library) (hsound : SoundScopes library scopes)
    (h : finalizeBlocks checks base offsets i scopes map = some (.ok (), map')) {x : Nat}
    (hx : ∀ (k : Nat) (scope : BlockScope MAX_REGS) (off : Nat), scopes[k]? = some scope →
      offsets.offsets[i + k]? = some off → x < off ∨ off + scope.block.extent ≤ x) :
    map'.bytes[x]? = map.bytes[x]? := by
  induction scopes generalizing i map with
  | nil =>
      obtain ⟨-, rfl⟩ := Prod.mk.inj (Option.some.inj h)
      rfl
  | cons scope rest ih =>
      obtain ⟨off, mid, hoff, hfin, hrest⟩ := finalizeBlocks_cons h
      obtain ⟨stencils, hstate⟩ := hsound scope List.mem_cons_self
      rw [ih (fun s hs => hsound s (List.mem_cons_of_mem scope hs)) hrest (by
        intro k s off' hs hoff'
        apply hx (k + 1) s off' hs
        rwa [Nat.add_assoc, Nat.add_comm 1 k] at hoff')]
      exact hstate.frame hlong hfin (hx 0 scope off rfl hoff)

/-- What a block's own round has written is still there in the end. -/
theorem finalizeBlocks_block (hlong : SoundLongJump library) (hsound : SoundScopes library scopes)
    (h : finalizeBlocks checks base offsets i scopes map = some (.ok (), map'))
    (hapart : ∀ (k m : Nat) (s s' : BlockScope MAX_REGS) (off off' : Nat), k < m →
      scopes[k]? = some s → scopes[m]? = some s' → offsets.offsets[i + k]? = some off →
        offsets.offsets[i + m]? = some off' → off + s.block.extent ≤ off')
    {k : Nat} {scope : BlockScope MAX_REGS} (hk : scopes[k]? = some scope) :
    ∃ off before after, offsets.offsets[i + k]? = some off ∧
      scope.block.finalizeInto checks base off before offsets = some (.ok (), after) ∧
        ∀ x, off ≤ x → x < off + scope.block.extent → map'.bytes[x]? = after.bytes[x]? := by
  induction scopes generalizing i k map with
  | nil => cases hk
  | cons first rest ih =>
      obtain ⟨off, mid, hoff, hfin, hrest⟩ := finalizeBlocks_cons h
      have htail : SoundScopes library rest := fun s hs => hsound s (List.mem_cons_of_mem first hs)
      cases k with
      | zero =>
          obtain rfl := Option.some.inj hk
          refine ⟨off, map, mid, hoff, hfin, fun x _ hhigh => ?_⟩
          -- the later blocks lie behind this one
          apply finalizeBlocks_frame hlong htail hrest
          intro m s off' hs hoff'
          rw [Nat.add_assoc, Nat.add_comm 1 m] at hoff'
          exact Or.inl (Nat.lt_of_lt_of_le hhigh
            (hapart 0 (m + 1) first s off off' (Nat.succ_pos m) rfl hs hoff hoff'))
      | succ k =>
          obtain ⟨off', before, after, hoff', hfin', hsame⟩ := @ih (i + 1) mid htail hrest (by
            intro a b s s' o o' hab hs hs' ho ho'
            rw [Nat.add_assoc, Nat.add_comm 1] at ho ho'
            exact hapart (a + 1) (b + 1) s s' o o' (Nat.succ_lt_succ hab) hs hs' ho ho') k hk
          rw [Nat.add_assoc, Nat.add_comm 1] at hoff'
          exact ⟨off', before, after, hoff', hfin', hsame⟩

end Loop

/-! ## The stencils of a run -/

section Record

variable {σ : Type → Type} [Slab σ] {MAX_REGS : Nat}

/-- The stencil that a call of the interface copies, with the place of its block. -/
def emitted (checks : Bool) (m : Machine σ MAX_REGS) (op : Op MAX_REGS) : List (Nat × CopiedStencil) :=
  match m.blockCall op with
  | some (id, c) =>
      (((m.codes[id.toNat]?).bind fun b => b.copied checks c).map fun p =>
        (id.toNat, ⟨p.1.code.length, p.2.1, validEntries p.2.2, c.emission.jumps.toList⟩)).toList
  | none => []

/-- The stencils of block `i`, in the order in which they were copied. -/
def stencilsOf (record : List (Nat × CopiedStencil)) (i : Nat) : List CopiedStencil :=
  record.filterMap fun p => if p.1 = i then some p.2 else none

theorem stencilsOf_append (record more : List (Nat × CopiedStencil)) (i : Nat) :
    stencilsOf (record ++ more) i = stencilsOf record i ++ stencilsOf more i :=
  List.filterMap_append

theorem stencilsOf_eq_nil {record : List (Nat × CopiedStencil)} {i : Nat}
    (h : ∀ p ∈ record, p.1 ≠ i) : stencilsOf record i = [] := by
  rw [stencilsOf, List.filterMap_eq_nil_iff]
  intro p hp
  exact if_neg (h p hp)

variable {checks : Bool} {library : StencilLibrary MAX_REGS}

theorem emitted_of_blockCall {m : Machine σ MAX_REGS} {op : Op MAX_REGS} {id : BlockId}
    {c : Call MAX_REGS} {b : PatchBlock MAX_REGS} (hcall : m.blockCall op = some (id, c))
    (hb : m.codes[id.toNat]? = some b) :
    emitted checks m op = ((b.copied checks c).map fun p =>
      (id.toNat, ⟨p.1.code.length, p.2.1, validEntries p.2.2, c.emission.jumps.toList⟩)).toList := by
  rw [emitted, hcall]
  simp only [hb, Option.bind_some]

theorem emitted_inside {m : Machine σ MAX_REGS} {op : Op MAX_REGS} {p : Nat × CopiedStencil}
    (hp : p ∈ emitted checks m op) : p.1 < m.codes.length := by
  rw [emitted] at hp
  split at hp
  · obtain ⟨q, hq, rfl⟩ := Option.map_eq_some_iff.1 (Option.mem_toList.1 hp)
    obtain ⟨b, hb, -⟩ := Option.bind_eq_some_iff.1 hq
    exact (List.getElem?_eq_some_iff.1 hb).1
  · cases hp

variable [LawfulSlab σ]

/-- The builder with the stencils that were copied. -/
abbrev Drawn (σ : Type → Type) (MAX_REGS : Nat) :=
  System.Recorded (Machine σ MAX_REGS) (Nat × CopiedStencil)

/-- Every block is joined from its stencils of the record. -/
structure Pictured (library : StencilLibrary MAX_REGS) (r : Drawn σ MAX_REGS) : Prop where
  sound : r.state.builder.allocator.Sound
  same : r.state.builder.library = library
  inside : ∀ p ∈ r.record, p.1 < r.state.codes.length
  joined : ∀ (i : Nat) (b : PatchBlock MAX_REGS), r.state.codes[i]? = some b →
    JoinedState library ⟨b, stencilsOf r.record i⟩

variable {r : Drawn σ MAX_REGS}

/-- A sound call on block `id` keeps the picture of all blocks. -/
theorem Pictured.called (h : Pictured library r) {op : Op MAX_REGS} {m' : Machine σ MAX_REGS}
    {id : BlockId} {c : Call MAX_REGS} {b b' : PatchBlock MAX_REGS} {res : Except PatchError Unit}
    (hcall : r.state.blockCall op = some (id, c)) (hb : r.state.codes[id.toNat]? = some b)
    (hc : SoundCall library c) (hrun : b.call checks c = some (res, b'))
    (hset : m'.codes = r.state.codes.set id.toNat b') {i : Nat} {block : PatchBlock MAX_REGS}
    (hblock : m'.codes[i]? = some block) :
    JoinedState library ⟨block, stencilsOf (r.record ++ emitted checks r.state op) i⟩ := by
  have hlt := (List.getElem?_eq_some_iff.1 hb).1
  have hold := h.joined _ b hb
  rw [emitted_of_blockCall hcall hb, stencilsOf_append]
  by_cases hi : i = id.toNat
  · subst hi
    rw [hset, List.getElem?_set_self hlt] at hblock
    obtain rfl := Option.some.inj hblock
    rcases PatchBlock.call_marked hrun with ⟨e, rfl, rfl⟩ | ⟨rfl, wide, settled, code, relocs, hcopy⟩
    · have hnone : b.copied checks c = none := by rw [PatchBlock.copied, hrun]
      rw [hnone]
      simp only [Option.map_none, Option.toList_none, stencilsOf, List.filterMap_nil, List.append_nil]
      exact hold.marked c
    · rw [hcopy.copied hrun]
      simp only [stencilsOf, Option.map_some, Option.toList_some, List.filterMap_cons, if_true,
        List.filterMap_nil]
      exact hold.copied hcopy (hc.copied hold.sound.same hrun hcopy)
  · rw [hset, List.getElem?_set_ne (Ne.symm hi)] at hblock
    rw [@stencilsOf_eq_nil (Option.toList _), List.append_nil]
    · exact h.joined i block hblock
    · intro p hp
      obtain ⟨q, -, rfl⟩ := Option.map_eq_some_iff.1 (Option.mem_toList.1 hp)
      exact Ne.symm hi

/-- **Every block of a run is joined from the stencils that the run copied into it.** -/
theorem pictured_of_reachable
    (h : (((machineSystem σ checks library).recorded (emitted checks)).guard fun r op =>
      Meets (fun _ => SoundCall library) r.state op).Reachable r) : Pictured library r := by
  refine System.Reachable.invariant ?_ ?_ h
  · rintro ⟨m, record⟩ ⟨h0, hrecord⟩
    obtain rfl : record = [] := hrecord
    obtain ⟨b, hb, rfl⟩ := Option.map_eq_some_iff.1 h0
    obtain ⟨hsound, hnew⟩ := new_cases hb
    refine ⟨hsound, congrArg (·.library) hnew, by simp, ?_⟩
    intro i block hblock
    rw [Machine.codes, congrArg (·.blocks) hnew] at hblock
    obtain rfl := List.mem_singleton.1 (List.mem_of_getElem? hblock)
    exact JoinedState.start
  · rintro ⟨m, record⟩ op ⟨m', record'⟩ - hi ⟨hmeets, ⟨out, hexec⟩, hrecord⟩
    obtain rfl : record' = record ++ emitted checks m op := hrecord
    have hexec : m.exec checks op = some (out, m') := hexec
    obtain ⟨hcode, hlibrary⟩ := Machine.exec_code hi.sound hexec
    have hlength : m.codes.length ≤ m'.codes.length := by
      cases hcode with
      | same hs => rw [hs]
      | grown hg => simp [hg]
      | called hcall hget hrun hset => rw [hset, List.length_set]
    refine ⟨(Machine.exec_change hi.sound hexec).sound hi.sound, hlibrary.trans hi.same, ?_, ?_⟩
    · intro p hp
      rcases List.mem_append.1 hp with hp | hp
      · exact Nat.lt_of_lt_of_le (hi.inside p hp) hlength
      · exact Nat.lt_of_lt_of_le (emitted_inside hp) hlength
    · intro i block hblock
      cases hcall : m.blockCall op with
      | some p =>
          obtain ⟨id, c⟩ := p
          obtain ⟨b, res, b', hb, hrun, hset⟩ := made_of_exec hi.sound hcall hexec
          exact hi.called hcall hb (hmeets (id, c) hcall b hb) hrun hset hblock
      | none =>
          have hrecord : stencilsOf (record ++ emitted checks m op) i = stencilsOf record i := by
            rw [emitted, hcall, List.append_nil]
          rw [hrecord]
          cases hcode with
          | same hs =>
              rw [hs] at hblock
              exact hi.joined i block hblock
          | grown hg =>
              rw [hg] at hblock
              rcases Nat.lt_or_ge i m.codes.length with hlt | hge
              · rw [List.getElem?_append_left hlt] at hblock
                exact hi.joined i block hblock
              · -- nothing was copied into the new block yet
                obtain rfl : block = .new m.builder.library := by
                  rw [List.getElem?_append_right hge] at hblock
                  exact List.mem_singleton.1 (List.mem_of_getElem? hblock)
                rw [stencilsOf_eq_nil fun p hp => Nat.ne_of_lt (Nat.lt_of_lt_of_le (hi.inside p hp) hge),
                  show m.builder.library = library from hi.same]
                exact JoinedState.start
          | called hcall' =>
              rw [hcall] at hcall'
              cases hcall'

end Record

/-! ## What a call copies -/

section Copies

variable {σ : Type → Type} [Slab σ] {MAX_REGS : Nat} {checks : Bool} {library : StencilLibrary MAX_REGS}
  {m m' : Machine σ MAX_REGS} {op : Op MAX_REGS} {id : BlockId} {v : Option Value}

/-- A family with the values for its holes. -/
structure Source (MAX_REGS : Nat) where
  {IN OUT HOLES JUMPS : Nat}
  family : StencilFamily IN OUT MAX_REGS HOLES JUMPS
  holes : Vector Usize HOLES

/-- What the call copies from. -/
def Op.source : Op MAX_REGS → Option (Source MAX_REGS)
  | .emit stencil _ _ holes => some ⟨stencil, holes⟩
  | .branch stencil _ _ holes _ => some ⟨stencil, holes⟩
  | .endBranch stencil _ _ holes _ _ => some ⟨stencil, holes⟩
  | .ret stencil _ holes => some ⟨stencil, holes⟩
  | _ => none

/-- A call is on a generated family if its source is. -/
theorem Op.generated_of_source {source : Source MAX_REGS} (h : op.source = some source)
    (hg : IsGenerated library source.family) : op.Generated library := by
  cases op with
  | emit | branch | endBranch | ret =>
      obtain rfl := Option.some.inj h
      exact hg
  | _ => cases h

/-- Where the copy is to jump. -/
def Op.targets : Op MAX_REGS → List JumpTarget
  | .emit .. => [.next]
  | .branch _ _ _ _ jumps => (jumps.map JumpScope.target).toList
  | .endBranch _ _ _ _ jumps _ => (jumps.map JumpScope.target).toList
  | _ => []

/-- What the call leaves of the handle of block `id`, if it succeeds. -/
def Op.handle (id : BlockId) : Op MAX_REGS → List BlockId
  | .endBranch _ _ _ _ _ next => [next]
  | .ret .. => []
  | _ => [id]

/-- A stencil that was selected for `source`, with its jumps. -/
structure CopyOf (library : StencilLibrary MAX_REGS) (source : Source MAX_REGS) (targets : List JumpTarget)
    (s : CopiedStencil) : Prop where
  jumps : s.jumps = targets
  selected : ∃ inputs outputs sel relocs,
    source.family.select inputs outputs source.holes = some (some sel) ∧
      sel.stencil.code library.code = some s.code ∧
        sel.stencil.relocations source.family = some relocs ∧ s.entries = validEntries relocs

/-- A block call that succeeds copies from what it was given. -/
theorem copy_of_call {c : Call MAX_REGS} {b b' : PatchBlock MAX_REGS}
    (hcall : m.blockCall op = some (id, c)) (hb : m.codes[id.toNat]? = some b)
    (hlibrary : b.library = library) (hrun : b.call checks c = some (.ok (), b')) :
    ∃ s, emitted checks m op = [(id.toNat, s)] ∧
      CopyOf library ⟨c.emission.stencil, c.emission.holes⟩ c.emission.jumps.toList s := by
  rcases PatchBlock.call_marked hrun with ⟨e, he, -⟩ | ⟨-, wide, settled, code, relocs, hcopy⟩
  · cases he
  · obtain ⟨sel, hsel, -, hcode, hrelocs⟩ := hcopy.source
    refine ⟨⟨settled.code.length, code, validEntries relocs, c.emission.jumps.toList⟩, ?_, rfl, ?_⟩
    · rw [emitted_of_blockCall hcall hb, hcopy.copied hrun]
      rfl
    · rw [hlibrary] at hcode
      exact ⟨_, _, sel, relocs, hsel, hcode, hrelocs, rfl⟩

variable [LawfulSlab σ]

theorem copy_of_branchWith {IN OUT JUMPS : Nat} {inputs : Vector Value IN} {outputs : Vector Value OUT}
    {jumps : Vector JumpScope JUMPS} {b : PatchFunctionBuilder σ MAX_REGS}
    {c : Vector Location IN → Vector Location OUT → Vector JumpTarget JUMPS → Call MAX_REGS}
    (hlibrary : ∀ b ∈ m.codes, b.library = library)
    (hcall : ∀ ins outs, m.builder.lookup inputs = some ins → m.builder.lookup outputs = some outs →
      m.builder.jumpsPass id jumps.toList = true →
        m.blockCall op = some (id, c ins outs (jumps.map JumpScope.target)))
    (h : m.builder.branchWith id inputs outputs jumps
      (fun ins outs targets s => s.call checks (c ins outs targets)) = some (.ok (), b)) :
    ∃ ins outs s, emitted checks m op = [(id.toNat, s)] ∧
      CopyOf library ⟨(c ins outs (jumps.map JumpScope.target)).emission.stencil,
        (c ins outs (jumps.map JumpScope.target)).emission.holes⟩
        (c ins outs (jumps.map JumpScope.target)).emission.jumps.toList s := by
  rcases Machine.branchWith_cases h with ⟨e, he, -⟩ | ⟨ins, outs, mid, hin, hout, hprep, hon⟩
  · cases he
  · obtain ⟨block, block', hget, hrun, -⟩ := Machine.codes_of_onBlock hon
    rw [show mid.blocks.map (·.block) = m.codes from (prepJumps_effect hprep).codes] at hget
    obtain ⟨s, hs⟩ := copy_of_call (hcall ins outs hin hout (by rw [jumpsPass, hprep])) hget
      (hlibrary _ (List.mem_of_getElem? hget)) hrun
    exact ⟨ins, outs, s, hs⟩

/-- **A call that succeeds copies one stencil**, from its family and with its jumps, into the block of the
handle. -/
theorem copy_of_exec (hlibrary : ∀ b ∈ m.codes, b.library = library) {rest : List BlockId}
    (hhandles : m.handles = id :: rest) {source : Source MAX_REGS} (hsource : op.source = some source)
    (h : m.exec checks op = some (.ok v, m')) :
    ∃ s, emitted checks m op = [(id.toNat, s)] ∧ CopyOf library source op.targets s ∧
      m'.handles = op.handle id ++ rest := by
  have hhead : m.handles.head? = some id := by rw [hhandles]; rfl
  cases op with
  | emit stencil inputs outputs holes =>
      obtain rfl := Option.some.inj hsource
      obtain ⟨x, hx, h1⟩ := Option.bind_eq_some_iff.1 h
      obtain rfl : x = id := Option.some.inj (hx.symm.trans hhead)
      obtain ⟨⟨res, b⟩, hb, hout⟩ := Option.map_eq_some_iff.1 h1
      obtain ⟨hres, rfl⟩ := Prod.mk.inj hout
      rcases emit_cases hb with ⟨e, rfl, -⟩ | ⟨ins, outs, hins, houts, hon⟩
      · cases hres
      · obtain ⟨block, block', hget, hrun, -⟩ := Machine.codes_of_onBlock hon
        cases res with
        | error e => cases hres
        | ok u =>
            obtain ⟨s, hs, hcopy⟩ := copy_of_call (Machine.blockCall_emit hx (lookup_of_locations hins)
              (lookup_of_locations houts)) hget (hlibrary _ (List.mem_of_getElem? hget)) hrun
            exact ⟨s, hs, hcopy, hhandles⟩
  | branch stencil inputs outputs holes jumps =>
      obtain rfl := Option.some.inj hsource
      obtain ⟨x, hx, h1⟩ := Option.bind_eq_some_iff.1 h
      obtain rfl : x = id := Option.some.inj (hx.symm.trans hhead)
      obtain ⟨⟨res, b⟩, hb, hout⟩ := Option.map_eq_some_iff.1 h1
      obtain ⟨hres, rfl⟩ := Prod.mk.inj hout
      cases res with
      | error e => cases hres
      | ok u =>
          obtain ⟨ins, outs, s, hs, hcopy⟩ := copy_of_branchWith hlibrary
            (c := fun ins outs targets => .branch stencil ins outs holes targets)
            (Machine.blockCall_branch hx) hb
          exact ⟨s, hs, hcopy, hhandles⟩
  | endBranch stencil inputs outputs holes jumps next =>
      obtain rfl := Option.some.inj hsource
      obtain ⟨x, hx, h1⟩ := Option.bind_eq_some_iff.1 h
      obtain rfl : x = id := Option.some.inj (hx.symm.trans hhead)
      obtain ⟨⟨res, b⟩, hb, hout⟩ := Option.map_eq_some_iff.1 h1
      cases res with
      | error e => cases (Prod.mk.inj hout).1
      | ok u =>
          obtain ⟨-, rfl⟩ := Prod.mk.inj hout
          rcases endBranch_cases hb with ⟨e, he, -⟩ | ⟨mid, hcode, -⟩
          · cases he
          · obtain ⟨ins, outs, s, hs, hcopy⟩ := copy_of_branchWith hlibrary
              (c := fun ins outs targets => .endBranch stencil ins outs holes targets)
              (Machine.blockCall_endBranch hx) hcode
            refine ⟨s, hs, hcopy, ?_⟩
            rw [hhandles]
            rfl
  | ret stencil inputs holes =>
      obtain rfl := Option.some.inj hsource
      obtain ⟨x, hx, h1⟩ := Option.bind_eq_some_iff.1 h
      obtain rfl : x = id := Option.some.inj (hx.symm.trans hhead)
      obtain ⟨⟨res, b⟩, hb, hout⟩ := Option.map_eq_some_iff.1 h1
      obtain ⟨hres, rfl⟩ := Prod.mk.inj hout
      rcases ret_cases hb with ⟨e, rfl, -⟩ | ⟨ins, hins, hon⟩
      · cases hres
      · obtain ⟨block, block', hget, hrun, -⟩ := Machine.codes_of_onBlock hon
        cases res with
        | error e => cases hres
        | ok u =>
            have hcall : m.blockCall (.ret stencil inputs holes) = some (x, .ret stencil ins holes) := by
              simp [Machine.blockCall, hx, lookup_of_locations hins]
            obtain ⟨s, hs, hcopy⟩ := copy_of_call hcall hget (hlibrary _ (List.mem_of_getElem? hget)) hrun
            refine ⟨s, hs, hcopy, ?_⟩
            rw [hhandles]
            rfl
  | createBlock => cases hsource
  | switchToEntry => cases hsource
  | switchToBlock block => cases hsource
  | newParam => cases hsource
  | newVariable => cases hsource
  | drop => cases hsource

end Copies

/-! ## The finished program -/

namespace PatchFunctionBuilder

variable {σ : Type → Type} {MAX_REGS : Nat}

/-- The lengths of the finished blocks. -/
def extents (self : PatchFunctionBuilder σ MAX_REGS) : List Nat := self.blocks.map (·.block.extent)

end PatchFunctionBuilder

section Program

variable {σ : Type → Type} [Slab σ] [LawfulSlab σ] {MAX_REGS : Nat} {checks : Bool}
  {library : StencilLibrary MAX_REGS} {r : Drawn σ MAX_REGS}

/-- A block ends where the next ones start, at the latest. -/
theorem offsets_apart {lens : List Nat} {k m n off off' : Nat} (hkm : k < m) (hk : lens[k]? = some n)
    (hoff : (ProgramBlocks.fromLens lens).1.offsets[k]? = some off)
    (hoff' : (ProgramBlocks.fromLens lens).1.offsets[m]? = some off') : off + n ≤ off' := by
  obtain ⟨hcount, hoffsets, -⟩ := ProgramBlocks.fromLens_spec lens
  have hm : m < lens.length := hcount ▸ (List.getElem?_eq_some_iff.1 hoff').1
  rw [hoffsets k (by omega), Option.some_inj] at hoff
  rw [hoffsets m hm, Option.some_inj] at hoff'
  have hle := ProgramBlocks.take_sum_add_le (lens.take m) (i := k) (n := n)
    (by rw [List.getElem?_take_of_lt hkm, hk])
  rw [List.take_take, Nat.min_eq_left (Nat.le_of_lt hkm)] at hle
  omega

/-- **Finalizing what was drawn.** In the finished program every block is the image of its stencils, at the
sum of the lengths of the blocks in front of it. -/
theorem Pictured.finished (h : Pictured library r) (hlong : SoundLongJump library)
    {allocator : Nat → Except PatchError (LoggedBuffer × Usize)} {map' : LoggedBuffer} {stack : U16}
    (hfinal : r.state.builder.finalizeInto checks allocator = some (.ok (map', stack))) :
    ∃ map base, allocator r.state.builder.programLen = .ok (map, base) ∧
      ∀ i < r.state.builder.blocks.length,
        Image library.empty base (r.state.builder.extents.take i).sum
          (ProgramBlocks.fromLens r.state.builder.extents).1 (stencilsOf r.record i) map'.bytes := by
  have hjoined : ∀ (i : Nat) (scope : BlockScope MAX_REGS), r.state.builder.blocks[i]? = some scope →
      JoinedState library ⟨scope.block, stencilsOf r.record i⟩ := by
    intro i scope hscope
    apply h.joined
    rw [Machine.codes, List.getElem?_map, hscope, Option.map_some]
  have hsound : SoundScopes library r.state.builder.blocks := by
    intro scope hscope
    obtain ⟨i, hi⟩ := List.mem_iff_getElem?.1 hscope
    exact ⟨_, (hjoined i scope hi).sound⟩
  have hmeasure := measureBlocks_total hlong fun scope hscope =>
    (hsound scope hscope).elim fun _ hstate => hstate.same
  obtain ⟨-, hoffsets, htotal⟩ := ProgramBlocks.fromLens_spec r.state.builder.extents
  -- all blocks are ended and there is memory, or finalizing would have failed
  have hlens : measureBlocks r.state.builder.blocks = some (.ok r.state.builder.extents) := by
    rw [hmeasure]
    split
    · rfl
    · next hended =>
      rw [PatchFunctionBuilder.finalizeInto, hmeasure, if_neg hended] at hfinal
      cases hfinal
  obtain ⟨⟨map, base⟩, hmemory⟩ : ∃ memory,
      allocator (ProgramBlocks.fromLens r.state.builder.extents).2 = .ok memory := by
    cases hallocator : allocator (ProgramBlocks.fromLens r.state.builder.extents).2 with
    | ok memory => exact ⟨memory, rfl⟩
    | error e =>
        rw [PatchFunctionBuilder.finalizeInto, hlens] at hfinal
        simp only [Option.bind_eq_bind, Option.bind_some, hallocator] at hfinal
        cases hfinal
  have hloop := finalizeInto_ok hfinal hlens hmemory
  have hlength : r.state.builder.programLen =
      (ProgramBlocks.fromLens r.state.builder.extents).2 := htotal.symm
  refine ⟨map, base, hlength ▸ hmemory, fun i hi => ?_⟩
  obtain ⟨off, before, after, hoff, hfin, hsame⟩ := finalizeBlocks_block hlong hsound hloop (by
    intro k m s s' off off' hkm hk hm hoff hoff'
    rw [Nat.zero_add] at hoff hoff'
    exact offsets_apart hkm (by rw [extents, List.getElem?_map, hk, Option.map_some]) hoff hoff')
    (List.getElem?_eq_getElem hi)
  rw [Nat.zero_add, hoffsets i (by rw [extents, List.length_map]; exact hi), Option.some_inj] at hoff
  rw [hoff]
  apply (hjoined i _ (List.getElem?_eq_getElem hi)).image hfin
  intro x hx
  have hin := Nat.lt_of_lt_of_le hx (PatchBlock.code_length_le_extent _)
  exact hsame _ (Nat.le_add_right _ _) (Nat.add_lt_add_left hin off)

/-- A run on generated families draws a picture. -/
theorem pictured_of_generated
    (hr : (((machineSystem σ checks library).recorded (emitted checks)).guard fun _ op =>
      op.Generated library).Reachable r) : Pictured library r :=
  pictured_of_reachable (hr.guard_mono fun _ _ hs hop =>
    meets_of_generated (sound_of_reachable hs.of_guard.of_recorded) hop)

/-- **The image of a program.** Whenever finalizing a program of generated families succeeds, every block is
the image of the stencils that were copied into it, at the sum of the lengths of the blocks in front of it. -/
theorem program_image
    (hr : (((machineSystem σ checks library).recorded (emitted checks)).guard fun _ op =>
      op.Generated library).Reachable r)
    (hlong : IsGenerated library library.longJump)
    {allocator : Nat → Except PatchError (LoggedBuffer × Usize)} {map' : LoggedBuffer} {stack : U16}
    (h : r.state.builder.finalizeInto checks allocator = some (.ok (map', stack))) :
    ∃ map base, allocator r.state.builder.programLen = .ok (map, base) ∧
      ∀ i < r.state.builder.blocks.length,
        Image library.empty base (r.state.builder.extents.take i).sum
          (ProgramBlocks.fromLens r.state.builder.extents).1 (stencilsOf r.record i) map'.bytes := by
  obtain ⟨metadata, calls, built, hg⟩ := hlong
  exact (pictured_of_generated hr).finished (soundLongJump_of_generated hg) h

end Program

/-! ## A program with a cut -/

/-- The calls on a new builder with the stencils they copy. -/
def drawnRunOf {MAX_REGS : Nat} (library : StencilLibrary MAX_REGS) (ops : List (Op MAX_REGS)) :
    Option (Drawn VecSlab MAX_REGS) :=
  recordedRunOf (emitted true) (fun _ _ => True) library ops

/-- The jump of the call stencil is cut off, and the jump to the second block starts in its place. -/
theorem program_image_call : ∃ (r : Drawn VecSlab 1) (map' : LoggedBuffer),
    drawnRunOf sampleLibrary callOps = some r ∧
      r.state.builder.finalizeInto true (memoryAt 0x1000) = some (.ok (map', 0)) ∧
        map'.bytes = callBytes ∧
          (stencilsOf r.record 0).map (fun s => (s.start, s.stop)) = [(0, 10), (5, 10)] ∧
            Image sampleLibrary.empty 0x1000 0 ⟨[0, 24]⟩ (stencilsOf r.record 0) callBytes := by
  have hrun : (drawnRunOf sampleLibrary callOps).map (fun r =>
      ((r.state.builder.finalizeInto true (memoryAt 0x1000)).map fun res =>
          (res.map fun out => (out.1.bytes, out.2)).toOption,
        (stencilsOf r.record 0).map (fun s => (s.start, s.stop)), r.state.builder.extents)) =
      some (some (some (callBytes, 0)), [(0, 10), (5, 10)], [24, 1]) := by
    decide +kernel
  obtain ⟨r, hr, hstate⟩ := Option.map_eq_some_iff.1 hrun
  obtain ⟨hfinal, hplaces, hextents⟩ : _ ∧ _ ∧ _ := by
    simpa only [Prod.mk.injEq] using hstate
  obtain ⟨res, hres, hbytes⟩ := Option.map_eq_some_iff.1 hfinal
  cases res with
  | error e => cases hbytes
  | ok out =>
      obtain ⟨map', stack⟩ := out
      obtain ⟨hmap, rfl⟩ := Prod.mk.inj (Option.some.inj hbytes)
      obtain ⟨map, base, hmemory, himage⟩ := program_image
        (reachable_of_recordedRunOf (fun _ op hop _ => generated_callOps op hop) hr)
        (isGenerated_of_generates ⟨0, 0, 1, 1, 0, []⟩
          [⟨[], ⟨11, 17⟩, ⟨[], []⟩, false, [holeField]⟩,
            ⟨[], ⟨11, 17⟩, ⟨[], []⟩, true, [holeField]⟩] (by decide +kernel)) hres
      obtain ⟨rfl, rfl⟩ := Prod.mk.inj (Except.ok.inj hmemory)
      have hfirst := himage 0 (by
        have hcount := congrArg List.length hextents
        rw [extents, List.length_map] at hcount
        rw [hcount]
        decide)
      rw [hextents, hmap] at hfirst
      exact ⟨r, map', hr, hres, hmap, hplaces, hfirst⟩

end Patchouly.Managed
