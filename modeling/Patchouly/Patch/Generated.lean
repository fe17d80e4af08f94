import Patchouly.Build.Completeness
import Patchouly.Patch.Finish

/-!
# Calls of generated families

`SoundCall` is about the stencil that a call selects. Where the family was built by `add_stencil`, the
selected stencil is one that was added, for operands with the same digits. So it is enough to look at what
was added: `SoundSource` is a condition on one `add_stencil` call and the library its code went to, and
`soundCall_of_generated` makes every call of such a family sound, whatever its operands and holes.

It does not matter how the crate that built the family treats overflow: a sound source has no entry for the
last hole or the last jump there could be, which are the ones that a wrapping count lets pass.
-/

set_option autoImplicit false

namespace Patchouly.Patch

open Patchouly.Lib Patchouly.Core Patchouly.Build StencilFamilyBuilder

/-! ## Ids below the counts -/

/-- The jumps that a list refers to are below `jumps`. -/
def TargetsBelow (jumps : Nat) (relocs : List Relocation) : Prop :=
  ∀ r ∈ relocs, ∀ i, r.patchInfo = some (.target i) → i.toNat < jumps

theorem patchInfo_eq_target {r : Relocation} {i : U16} (h : r.patchInfo = some (.target i)) :
    r.patchKind = .target ∧ r.patchId = i := by
  rw [Relocation.patchInfo] at h
  cases hkind : r.patchKind with
  | target =>
      rw [hkind] at h
      exact ⟨rfl, PatchInfo.target.inj (Option.some.inj h)⟩
  | stack | hole | runtime | unknown =>
      rw [hkind] at h
      cases h

/-- A successful call has passed the comparison with the family's jumps. -/
theorem targetsBelow_of_addStencil {checks : Bool} {self self' : StencilFamilyBuilder}
    {call : StencilCall} (h : self.addStencil checks call = some (.ok (), self'))
    (hlast : ∀ r ∈ call.relocations, r.patchInfo ≠ some (.target 0xFFFF)) :
    TargetsBelow self.family.JUMPS call.relocations := by
  simp only [addStencil, Option.bind_eq_bind, Option.pure_def] at h
  obtain ⟨holes, -, h⟩ := Option.bind_eq_some_iff.1 h
  obtain ⟨jumps, hjumps, h⟩ := Option.bind_eq_some_iff.1 h
  split at h
  · cases h
  · next hshape =>
    simp only [not_or, Nat.not_lt] at hshape
    intro r hr i hi
    obtain ⟨hkind, rfl⟩ := patchInfo_eq_target hi
    rcases lt_idCount hjumps hr hkind with hlt | ⟨-, hwrap⟩
    · exact Nat.lt_of_lt_of_le hlt hshape.2.2.2
    · rw [hwrap] at hi
      exact absurd hi (hlast r hr)

/-- The jumps of all lists of a run of successful calls are below the family's. -/
theorem targetsBelow_of_addStencils {checks : Bool} {calls : List StencilCall}
    {self self' : StencilFamilyBuilder} (h : self.addStencils checks calls = some (.ok (), self'))
    (hlast : ∀ call ∈ calls, ∀ r ∈ call.relocations, r.patchInfo ≠ some (.target 0xFFFF)) :
    self'.family.JUMPS = self.family.JUMPS ∧
      ∀ call ∈ calls, TargetsBelow self.family.JUMPS call.relocations := by
  induction calls generalizing self with
  | nil =>
      obtain ⟨-, rfl⟩ := Prod.mk.inj (Option.some.inj h)
      exact ⟨rfl, fun call hcall => absurd hcall List.not_mem_nil⟩
  | cons first rest ih =>
      rw [addStencils, Option.bind_eq_bind] at h
      obtain ⟨⟨result, next⟩, hstep, h⟩ := Option.bind_eq_some_iff.1 h
      cases result with
      | error e => cases h
      | ok u =>
          obtain ⟨hsame, hrest⟩ := ih h fun call hcall => hlast call (List.mem_cons_of_mem first hcall)
          have hbare : next.bare = self.bare := by
            rcases addStencil_cases hstep with ⟨rfl, -⟩ | ⟨-, hbare, -⟩
            · rfl
            · exact hbare
          have hjumps : next.family.JUMPS = self.family.JUMPS := congrArg (·.JUMPS) hbare
          rw [hjumps] at hsame hrest
          refine ⟨hsame, ?_⟩
          intro call hcall
          rcases List.mem_cons.1 hcall with rfl | hcall
          · exact targetsBelow_of_addStencil hstep (hlast call List.mem_cons_self)
          · exact hrest call hcall

/-! ## Stack operands -/

/-- Whether a location is on the stack can be read off its digit. -/
theorem stackVars_length (vars : List Location) :
    (stackVars vars).length = (vars.map Location.digit).count 0 := by
  induction vars with
  | nil => rfl
  | cons v vars ih =>
      cases v with
      | stack slot =>
          rw [List.map_cons, Location.digit, List.count_cons_self, ← ih]
          rfl
      | register i =>
          rw [List.map_cons, Location.digit, List.count_cons_of_ne (Nat.succ_ne_zero _), ← ih]
          rfl

/-! ## Sound sources -/

section Sources

variable {MAX_REGS : Nat}

/-- The code that `add_stencil` is told of, in the code of the library. -/
def sourceCode (library : StencilLibrary MAX_REGS) (call : StencilCall) : List U8 :=
  (library.code.drop call.code.start).take call.code.len

/-- The stack operand or the runtime function that an entry patches is there, and a hole or a jump is not
the last one there could be. -/
def SourceEntry (library : StencilLibrary MAX_REGS) (call : StencilCall) (r : Relocation) : Prop :=
  match r.patchInfo with
  | some (.stack i) => i.toNat < (stackVars (call.io.inputs ++ call.io.outputs)).length ∧
      r.relative = false
  | some (.runtime i) => i.toNat < library.rtSymbols.length
  | some (.hole i) => i ≠ 0xFFFF
  | some (.target i) => i ≠ 0xFFFF
  | none => False

instance (library : StencilLibrary MAX_REGS) (call : StencilCall) (r : Relocation) :
    Decidable (SourceEntry library call r) := by
  unfold SourceEntry
  generalize r.patchInfo = info
  exact match info with
    | some (.stack _) => instDecidableAnd
    | some (.runtime _) => Nat.decLt _ _
    | some (.hole _) => instDecidableNot
    | some (.target _) => instDecidableNot
    | none => instDecidableFalse

/-- A source has no entry for the last hole or the last jump there could be. -/
theorem SourceEntry.ne_last {library : StencilLibrary MAX_REGS} {call : StencilCall} {r : Relocation}
    (h : SourceEntry library call r) :
    r.patchInfo ≠ some (.hole 0xFFFF) ∧ r.patchInfo ≠ some (.target 0xFFFF) := by
  constructor
  · intro hi
    rw [SourceEntry, hi] at h
    exact h rfl
  · intro hi
    rw [SourceEntry, hi] at h
    exact h rfl

/-- **A sound source**: one `add_stencil` call, with its code in the library. -/
structure SoundSource (library : StencilLibrary MAX_REGS) (call : StencilCall) : Prop where
  inside : call.code.start + call.code.len ≤ library.code.length
  digits : ∀ l ∈ call.io.inputs ++ call.io.outputs, l.digit < MAX_REGS
  valid : ∀ r ∈ call.relocations, r.isInvalid = false
  stencil : SoundStencil library.empty (sourceCode library call) call.relocations
  entries : ∀ r ∈ call.relocations, SourceEntry library call r

instance (library : StencilLibrary MAX_REGS) (call : StencilCall) :
    Decidable (SoundSource library call) :=
  decidable_of_iff (call.code.start + call.code.len ≤ library.code.length ∧
      (∀ l ∈ call.io.inputs ++ call.io.outputs, l.digit < MAX_REGS) ∧
      (∀ r ∈ call.relocations, r.isInvalid = false) ∧
      SoundStencil library.empty (sourceCode library call) call.relocations ∧
      ∀ r ∈ call.relocations, SourceEntry library call r)
    ⟨fun ⟨h1, h2, h3, h4, h5⟩ => ⟨h1, h2, h3, h4, h5⟩,
      fun h => ⟨h.inside, h.digits, h.valid, h.stencil, h.entries⟩⟩

/-- The family was built by successful calls with sound sources, with or without overflow checks. -/
structure Generated {IN OUT HOLES JUMPS : Nat} (library : StencilLibrary MAX_REGS)
    (family : StencilFamily IN OUT MAX_REGS HOLES JUMPS) (metadata : Metadata)
    (calls : List StencilCall) (b : StencilFamilyBuilder) : Prop where
  built : ∃ checks, (StencilFamilyBuilder.new metadata).addStencils checks calls = some (.ok (), b)
  nonempty : calls ≠ []
  shape : b.finalize.IN = IN ∧ b.finalize.OUT = OUT ∧ b.finalize.MAX_REGS = MAX_REGS ∧
    b.finalize.HOLES = HOLES ∧ b.finalize.JUMPS = JUMPS
  relocationData : family.relocationData = b.finalize.relocationData
  stencils : family.stencils = b.finalize.stencils
  sources : ∀ call ∈ calls, SoundSource library call

/-- The stored stencil of a sound source, as the library and the family give it back. -/
theorem selection_of_stores {library : StencilLibrary MAX_REGS} {IN OUT HOLES JUMPS : Nat}
    {family : StencilFamily IN OUT MAX_REGS HOLES JUMPS} {call : StencilCall} {stencil : Stencil}
    (hs : SoundSource library call) (h : Stores family.relocationData call stencil) :
    stencil.code library.code = some (sourceCode library call) ∧
      ∃ relocs, stencil.relocations family = some relocs ∧ validEntries relocs = call.relocations := by
  constructor
  · rw [Stencil.code, h.codeIndex, h.codeLen, if_pos hs.inside]
    rfl
  · exact ⟨_, if_pos (Nat.le_of_lt h.relocations.lt_length), validEntries_eq h.relocations hs.valid⟩

/-- What a generated family selects: nothing, or what was added for operands with the same digits. -/
theorem selected_of_generated {IN OUT HOLES JUMPS : Nat} {library : StencilLibrary MAX_REGS}
    {family : StencilFamily IN OUT MAX_REGS HOLES JUMPS} {metadata : Metadata}
    {calls : List StencilCall} {b : StencilFamilyBuilder}
    (hg : Generated library family metadata calls b) {inputs : Vector Location IN}
    {outputs : Vector Location OUT} (holes : Vector Usize HOLES)
    (hdigits : ∀ v ∈ inputs.toList ++ outputs.toList, v.digit < MAX_REGS) :
    ∃ selected ∈ family.select inputs outputs holes, ∀ sel ∈ selected, ∃ call ∈ calls,
      call.For inputs.toList outputs.toList sel.wide ∧ HolesBelow HOLES call.relocations ∧
        sel.stencil.code library.code = some (sourceCode library call) ∧
          ∃ relocs, sel.stencil.relocations family = some relocs ∧ validEntries relocs = call.relocations := by
  obtain ⟨checks, hbuilt⟩ := hg.built
  have F := filled_addStencils hbuilt
  have hshape := hg.shape
  rw [finalize] at hshape
  obtain ⟨rfl, rfl, rfl, rfl, rfl⟩ := hshape
  obtain rfl : family = b.family.typed := by
    obtain ⟨data, stencils⟩ := family
    exact congr (congrArg _ hg.relocationData) hg.stencils
  have htable : InTable b.family.IN b.family.OUT b.family.MAX_REGS inputs.toList outputs.toList :=
    ⟨Vector.length_toList, Vector.length_toList, hdigits⟩
  have hbelow : ∀ call ∈ calls, HolesBelow b.family.HOLES call.relocations := fun call hcall =>
    (F.admitted call hcall).holes.below fun r hr => ((hg.sources call hcall).entries r hr).ne_last.1
  have hends : WalkEnds b.family.MAX_REGS calls inputs.toList outputs.toList holes.toList := by
    intro call hcall
    apply HolesBelow.exist
    rw [Vector.length_toList]
    exact hbelow call (mem_of_walkedCall hcall)
  obtain ⟨wide, stencil, hselected, hslot, -⟩ :=
    F.select_eq hg.nonempty (fun call hcall => (hg.sources call hcall).valid) htable hends
  refine ⟨SelectedStencil.new wide stencil, hselected, ?_⟩
  intro sel hsel
  rw [Option.mem_def, SelectedStencil.new] at hsel
  split at hsel
  · cases hsel
  · next hcode =>
    obtain rfl := Option.some.inj hsel
    cases hlast : lastCall b.family.MAX_REGS calls
        (ioToIndex inputs.toList outputs.toList b.family.MAX_REGS wide) with
    | none =>
        -- an empty slot has no code
        rw [hlast] at hslot
        exact absurd (congrArg (·.codeLen) hslot) hcode
    | some call =>
        rw [hlast] at hslot
        obtain ⟨hcall, hat⟩ := lastCall_eq_some hlast
        have hsource := hg.sources call hcall
        have hadmitted := F.admitted call hcall
        have hfor := (StencilCall.slot_eq_iff
          ⟨hadmitted.ins, hadmitted.outs, hsource.digits⟩ htable wide).1 hat
        exact ⟨call, hcall, hfor, hbelow call hcall, selection_of_stores hsource hslot⟩

/-- **Every call of a generated family is sound**, for all locations but the register that overflows,
and all holes and jumps. -/
theorem soundCall_of_generated {IN OUT HOLES JUMPS : Nat} {library : StencilLibrary MAX_REGS}
    {family : StencilFamily IN OUT MAX_REGS HOLES JUMPS} {metadata : Metadata}
    {calls : List StencilCall} {b : StencilFamilyBuilder}
    (hg : Generated library family metadata calls b) {c : Call MAX_REGS} {inputs : Vector Location IN}
    {outputs : Vector Location OUT} {holes : Vector Usize HOLES} {jumps : Vector JumpTarget JUMPS}
    (hc : c.emission = ⟨family, inputs, outputs, holes, jumps⟩)
    (hvars : ∀ v ∈ c.vars, v ≠ .register 0xFFFF) : SoundCall library c := by
  obtain ⟨checks, hbuilt⟩ := hg.built
  obtain ⟨hjumps, htargets⟩ := targetsBelow_of_addStencils hbuilt
    fun call hcall r hr => ((hg.sources call hcall).entries r hr).ne_last.2
  have hcvars : c.vars = inputs.toList ++ outputs.toList := by rw [Call.vars, hc]
  have hselect : c.selected = family.select inputs outputs holes := by rw [Call.selected, hc]
  refine ⟨hvars, ?_⟩
  intro hdigits
  obtain ⟨selected, hselected, hall⟩ := selected_of_generated hg holes (hcvars ▸ hdigits)
  refine ⟨selected, hselect.trans hselected, ?_⟩
  intro sel hsel
  obtain ⟨call, hcall, hfor, hholes, hcode, relocs, hrelocs, hvalid⟩ := hall sel hsel
  have hsource := hg.sources call hcall
  -- the source was added for as many stack operands as the call has
  have hstack : (stackVars (call.io.inputs ++ call.io.outputs)).length = (stackVars c.vars).length := by
    rw [hcvars, stackVars_length, stackVars_length, List.map_append, List.map_append, hfor.inputs,
      hfor.outputs]
  refine ⟨sourceCode library call, hcode, relocs, by rw [hc]; exact hrelocs, ?_⟩
  rw [hvalid]
  refine ⟨hsource.stencil, ?_⟩
  intro r hr
  have hentry := hsource.entries r hr
  rw [SourceEntry] at hentry
  rw [EntryFits, hc]
  cases hinfo : r.patchInfo with
  | none =>
      rw [hinfo] at hentry
      exact hentry
  | some info =>
      rw [hinfo] at hentry
      cases info with
      | hole i =>
          show i.toNat < holes.toList.length
          rw [Vector.length_toList]
          exact hholes r hr i hinfo
      | stack i =>
          rw [hstack] at hentry
          exact hentry
      | target i =>
          show i.toNat < jumps.toList.length
          rw [Vector.length_toList, ← hg.shape.2.2.2.2, finalize, hjumps]
          exact htargets call hcall r hr i hinfo
      | runtime i => exact hentry

/-- A generated long jump is sound. -/
theorem soundLongJump_of_generated {library : StencilLibrary MAX_REGS} {metadata : Metadata}
    {calls : List StencilCall} {b : StencilFamilyBuilder}
    (hg : Generated library library.longJump metadata calls b) : SoundLongJump library := by
  obtain ⟨selected, hselected, hall⟩ := @selected_of_generated _ _ _ _ _ _ _ _ _ _ hg nil nil
    (.singleton (BitVec.allOnes 64)) fun v hv => absurd hv List.not_mem_nil
  rw [Option.mem_def] at hselected
  refine ⟨selected.map (·.stencil), ?_, ?_⟩
  · rw [Option.mem_def, PatchBlock.longJumpStencil]
    exact Option.map_eq_some_iff.2 ⟨selected, hselected, rfl⟩
  · intro lj hlj
    obtain ⟨sel, hsel, rfl⟩ := Option.map_eq_some_iff.1 hlj
    obtain ⟨call, hcall, -, -, hcode, relocs, hrelocs, hvalid⟩ := hall sel hsel
    have hstencil := (hg.sources call hcall).stencil
    refine ⟨sourceCode library call, hcode, relocs, hrelocs, ?_⟩
    rw [holeZeroEntries, hvalid]
    exact ⟨fun r hr => hstencil.inside r (List.mem_of_mem_filter hr),
      fun r hr => hstencil.sizes r (List.mem_of_mem_filter hr)⟩

/-! ## Checking a family -/

/-- The family was generated for the library, by some calls. -/
def IsGenerated {IN OUT HOLES JUMPS : Nat} (library : StencilLibrary MAX_REGS)
    (family : StencilFamily IN OUT MAX_REGS HOLES JUMPS) : Prop :=
  ∃ metadata calls b, Generated library family metadata calls b

/-- Whether these calls generate the family, with overflow checks. -/
def generates {IN OUT HOLES JUMPS : Nat} (library : StencilLibrary MAX_REGS)
    (family : StencilFamily IN OUT MAX_REGS HOLES JUMPS) (metadata : Metadata)
    (calls : List StencilCall) : Bool :=
  match (StencilFamilyBuilder.new metadata).addStencils true calls with
  | some (.ok (), b) =>
      decide (calls ≠ [] ∧ (b.finalize.IN = IN ∧ b.finalize.OUT = OUT ∧ b.finalize.MAX_REGS = MAX_REGS ∧
        b.finalize.HOLES = HOLES ∧ b.finalize.JUMPS = JUMPS) ∧
          family.relocationData = b.finalize.relocationData ∧ family.stencils = b.finalize.stencils ∧
            ∀ call ∈ calls, SoundSource library call)
  | _ => false

theorem isGenerated_of_generates {IN OUT HOLES JUMPS : Nat} {library : StencilLibrary MAX_REGS}
    {family : StencilFamily IN OUT MAX_REGS HOLES JUMPS} (metadata : Metadata)
    (calls : List StencilCall) (h : generates library family metadata calls = true) :
    IsGenerated library family := by
  rw [generates] at h
  split at h
  · next b hb =>
    obtain ⟨hnonempty, hshape, hdata, hstencils, hsources⟩ := of_decide_eq_true h
    exact ⟨metadata, calls, b, ⟨true, hb⟩, hnonempty, hshape, hdata, hstencils, hsources⟩
  · cases h

end Sources

end Patchouly.Patch
