import Patchouly.Build.Names
import Patchouly.Core.Selection
import Patchouly.Lib.Tables
import Patchouly.Macros.Perm

/-!
# Building a family (`patchouly-build`, `extract.rs`)

`StencilFamilyBuilder` collects the stencils of one function: a table with a slot for every vector of
operand locations, twice as long when there are wide stencils, and a pool of relocation lists that the
slots share. A slot no stencil was added for stays empty.

After a run of successful calls every slot holds the stencil of its last call (`filled_addStencils`).

The crate's `+` and `-` abort on overflow where `checks` is set, and wrap otherwise: a count then starts
again at zero behind the id `0xFFFF` (`lt_idCount`). Code offsets and table lengths are natural numbers.
-/

set_option autoImplicit false

namespace Patchouly.Build

open Patchouly.Lib Patchouly.Core Patchouly.Macros

structure Metadata where
  inputs : U16
  outputs : U16
  maxRegs : U16
  holes : U16
  jumps : U16
  signature : Ident
  deriving DecidableEq

structure StencilFamilyBuild where
  IN : Nat
  OUT : Nat
  MAX_REGS : Nat
  HOLES : Nat
  JUMPS : Nat
  relocationData : List Relocation
  stencils : List Stencil
  doc : Ident
  deriving DecidableEq

/-- The constant that the generated source declares. -/
def StencilFamilyBuild.typed (self : StencilFamilyBuild) :
    Core.StencilFamily self.IN self.OUT self.MAX_REGS self.HOLES self.JUMPS :=
  ⟨self.relocationData, self.stencils⟩

structure StencilFamilyBuilder where
  family : StencilFamilyBuild
  existingRelocations : List (List Relocation × Nat)
  deriving DecidableEq

structure CodeRange where
  start : Nat
  stop : Nat
  deriving DecidableEq

def CodeRange.len (self : CodeRange) : Nat := self.stop - self.start

/-- The arguments of one `add_stencil`. -/
structure StencilCall where
  name : Ident
  code : CodeRange
  io : StencilArgs
  wide : Bool
  relocations : List Relocation
  deriving DecidableEq

/-- The errors of the extractor, with the values that their texts name. -/
inductive ExtractError where
  /-- "stencil family mismatch": inputs, outputs, holes and jumps, as expected and as they are. -/
  | familyMismatch (name : Ident) (expected got : Nat × Nat × Nat × Nat)
      (relocations : List Relocation)
  /-- A number that does not fit its type. -/
  | tryFromInt
  /-- A value that does not fit its bits. -/
  | tooBig
  | unsupportedEncoding
  | unsupportedKind
  /-- "all function calls/data in stencils must be inlined". -/
  | notInlined (symName name : Ident)
  | noMeta (name : Ident)
  /-- "all stencils must have the same max_regs". -/
  | maxRegsDiffer (name : Ident)
  /-- An error of the `object` crate. -/
  | object
  deriving DecidableEq

/-- One more than the largest id that the entries of one kind patch, zero if there is none. -/
def idCount (checks : Bool) (kind : PatchKind) (relocations : List Relocation) : Option Nat := do
  let counts ← (relocations.filter fun reloc => reloc.patchKind = kind).mapM fun reloc =>
    plainAdd checks reloc.patchId 1
  return (counts.map BitVec.toNat).foldl max 0

namespace StencilFamilyBuilder

def new (metadata : Metadata) : StencilFamilyBuilder :=
  let IN := metadata.inputs.toNat
  let OUT := metadata.outputs.toNat
  let MAX_REGS := metadata.maxRegs.toNat
  let newLen := stencilsLen IN OUT MAX_REGS * if 0 < metadata.holes then 2 else 1
  { family :=
      { IN, OUT, MAX_REGS
        HOLES := metadata.holes.toNat
        JUMPS := metadata.jumps.toNat
        relocationData := []
        stencils := List.replicate newLen default
        doc := metadata.signature }
    existingRelocations := [] }

/-- The stencil that `add_stencil` stores. -/
def stencilOf (code : CodeRange) (relocationStart : Nat) : Option Stencil := do
  let codeIndex ← tryInto 32 code.start
  let codeLen ← tryInto 16 code.len
  let relocationIndex ← tryInto 16 relocationStart
  return ⟨codeIndex, codeLen, relocationIndex⟩

section

variable (checks : Bool)

def addStencil (self : StencilFamilyBuilder) (call : StencilCall) :
    Option (Except ExtractError Unit × StencilFamilyBuilder) := do
  let { name, code, io, wide, relocations } := call
  let holes ← idCount checks .hole relocations
  let jumps ← idCount checks .target relocations
  if self.family.IN ≠ io.inputs.length ∨ self.family.OUT ≠ io.outputs.length ∨
      self.family.HOLES < holes ∨ self.family.JUMPS < jumps then
    return (.error (.familyMismatch name
      (self.family.IN, self.family.OUT, self.family.HOLES, self.family.JUMPS)
      (io.inputs.length, io.outputs.length, holes, jumps) relocations), self)
  let (relocationStart, pool) :=
    Pool.intern Relocation.new relocations ⟨self.family.relocationData, self.existingRelocations⟩
  let self := { self with
    family.relocationData := pool.data
    existingRelocations := pool.starts }
  match stencilOf code relocationStart with
  | none => return (.error .tryFromInt, self)
  | some stencil =>
      let index := ioToIndex io.inputs io.outputs self.family.MAX_REGS wide
      if index < self.family.stencils.length then
        return (.ok (), { self with family.stencils := self.family.stencils.set index stencil })
      else none

/-- A run of calls, up to the first error. -/
def addStencils (self : StencilFamilyBuilder) :
    List StencilCall → Option (Except ExtractError Unit × StencilFamilyBuilder)
  | [] => some (.ok (), self)
  | call :: calls => do
      match ← self.addStencil checks call with
      | (.error e, self) => return (.error e, self)
      | (.ok (), self) => addStencils self calls

end

def finalize (self : StencilFamilyBuilder) : StencilFamilyBuild := self.family

end StencilFamilyBuilder

/-! ## One call -/

theorem le_foldl_max {l : List Nat} {m a : Nat} (h : a ∈ l ∨ a ≤ m) : a ≤ l.foldl max m := by
  induction l generalizing m with
  | nil => simpa using h
  | cons b l ih =>
      apply ih
      rcases h with h | h
      · rcases List.mem_cons.1 h with rfl | h
        · exact Or.inr (Nat.le_max_right _ _)
        · exact Or.inl h
      · exact Or.inr (Nat.le_trans h (Nat.le_max_left _ _))

/-- The count is above every id of its kind, but for the one behind which a count wraps. -/
theorem lt_idCount {checks : Bool} {kind : PatchKind} {relocations : List Relocation} {n : Nat}
    (h : idCount checks kind relocations = some n) {reloc : Relocation} (hr : reloc ∈ relocations)
    (hkind : reloc.patchKind = kind) :
    reloc.patchId.toNat < n ∨ checks = false ∧ reloc.patchId = 0xFFFF := by
  simp only [idCount, Option.bind_eq_bind, Option.pure_def] at h
  obtain ⟨counts, hcounts, h⟩ := Option.bind_eq_some_iff.1 h
  obtain rfl := Option.some.inj h
  obtain ⟨count, hmem, hcount⟩ := result_of_mapM hcounts
    (List.mem_filter.2 ⟨hr, decide_eq_true hkind⟩)
  have hle := le_foldl_max (m := 0) (Or.inl (List.mem_map_of_mem hmem : count.toNat ∈ _))
  rcases succ_of_plainAdd (by decide) hcount with hsucc | hwrap
  · exact Or.inl (by omega)
  · exact Or.inr hwrap

theorem patchInfo_eq_hole {reloc : Relocation} {i : U16} (h : reloc.patchInfo = some (.hole i)) :
    reloc.patchKind = .hole ∧ reloc.patchId = i := by
  rw [Relocation.patchInfo] at h
  cases hkind : reloc.patchKind with
  | hole =>
      rw [hkind] at h
      exact ⟨rfl, PatchInfo.hole.inj (Option.some.inj h)⟩
  | stack | target | runtime | unknown =>
      rw [hkind] at h
      cases h

/-- A hole of a list whose count was compared with `holes` is one of these, or the last id there is. -/
def HolesCounted (checks : Bool) (holes : Nat) (relocations : List Relocation) : Prop :=
  ∀ reloc ∈ relocations, ∀ i, reloc.patchInfo = some (.hole i) →
    i.toNat < holes ∨ checks = false ∧ i = 0xFFFF

theorem holesCounted_of_idCount {checks : Bool} {relocations : List Relocation} {n m : Nat}
    (h : idCount checks .hole relocations = some n) (hle : n ≤ m) :
    HolesCounted checks m relocations := by
  intro reloc hr i hi
  obtain ⟨hkind, rfl⟩ := patchInfo_eq_hole hi
  exact (lt_idCount h hr hkind).imp_left fun hlt => Nat.lt_of_lt_of_le hlt hle

/-- Without the last id the holes are below their count, whatever the overflow behaviour. -/
theorem HolesCounted.below {checks : Bool} {holes : Nat} {relocations : List Relocation}
    (h : HolesCounted checks holes relocations)
    (hlast : ∀ reloc ∈ relocations, reloc.patchInfo ≠ some (.hole 0xFFFF)) :
    HolesBelow holes relocations := by
  intro reloc hr i hi
  rcases h reloc hr i hi with hlt | ⟨-, rfl⟩
  · exact hlt
  · exact absurd hi (hlast reloc hr)

/-- The slot that a call fills. -/
def StencilCall.slot (maxRegs : Nat) (call : StencilCall) : Nat :=
  ioToIndex call.io.inputs call.io.outputs maxRegs call.wide

/-- A stencil that was stored for a call, in a pool that may have grown since. -/
structure Stores (data : List Relocation) (call : StencilCall) (stencil : Stencil) : Prop where
  codeIndex : stencil.codeIndex.toNat = call.code.start
  codeLen : stencil.codeLen.toNat = call.code.len
  relocations : StandsAt data stencil.relocationIndex.toNat (call.relocations ++ [Relocation.new])

theorem Stores.extend {data data' : List Relocation} {call : StencilCall} {stencil : Stencil}
    (h : Stores data call stencil) (hdata : data <+: data') : Stores data' call stencil :=
  { h with relocations := h.relocations.extend hdata }

theorem stores_of_stencilOf {data : List Relocation} {call : StencilCall} {start : Nat}
    {stencil : Stencil} (h : StencilFamilyBuilder.stencilOf call.code start = some stencil)
    (hstart : StandsAt data start (call.relocations ++ [Relocation.new])) :
    Stores data call stencil := by
  simp only [StencilFamilyBuilder.stencilOf, Option.bind_eq_bind, Option.pure_def] at h
  obtain ⟨codeIndex, hindex, h⟩ := Option.bind_eq_some_iff.1 h
  obtain ⟨codeLen, hlen, h⟩ := Option.bind_eq_some_iff.1 h
  obtain ⟨relocationIndex, hreloc, h⟩ := Option.bind_eq_some_iff.1 h
  obtain rfl := Option.some.inj h
  refine ⟨tryInto_eq_some hindex, tryInto_eq_some hlen, ?_⟩
  rw [tryInto_eq_some hreloc]
  exact hstart

namespace StencilFamilyBuilder

/-- The pool behind the table. -/
def pool (self : StencilFamilyBuilder) : Pool Relocation :=
  ⟨self.family.relocationData, self.existingRelocations⟩

/-- The family without its pool and its table. -/
def bare (self : StencilFamilyBuilder) : StencilFamilyBuild :=
  { self.family with
    relocationData := []
    stencils := [] }

/-- The same dimensions. -/
theorem dimensions_of_bare {self self' : StencilFamilyBuilder} (h : self'.bare = self.bare) :
    self'.family.IN = self.family.IN ∧ self'.family.OUT = self.family.OUT ∧
      self'.family.MAX_REGS = self.family.MAX_REGS ∧ self'.family.HOLES = self.family.HOLES := by
  have hfields := StencilFamilyBuild.mk.inj h
  exact ⟨hfields.1, hfields.2.1, hfields.2.2.1, hfields.2.2.2.1⟩

/-- A call of the family's shape. -/
structure Admitted (checks : Bool) (b : StencilFamilyBuilder) (call : StencilCall) : Prop where
  ins : call.io.inputs.length = b.family.IN
  outs : call.io.outputs.length = b.family.OUT
  holes : HolesCounted checks b.family.HOLES call.relocations

/-- A table with a slot for some operands has locations for them. -/
theorem maxRegs_pos {metadata : Metadata} {b : StencilFamilyBuilder}
    (hbare : b.bare = (new metadata).bare)
    (hlen : b.family.stencils.length = (new metadata).family.stencils.length) {n : Nat}
    (hn : n < b.family.stencils.length) (hops : b.family.IN + b.family.OUT ≠ 0) :
    0 < b.family.MAX_REGS := by
  apply Nat.pos_of_ne_zero
  intro hzero
  obtain ⟨hIN, hOUT, hmax, -⟩ := dimensions_of_bare hbare
  have hempty : stencilsLen (new metadata).family.IN (new metadata).family.OUT
      (new metadata).family.MAX_REGS = 0 := by
    rw [← hIN, ← hOUT, ← hmax, hzero, stencilsLen, Nat.zero_pow (Nat.pos_of_ne_zero hops)]
  have hnone : (new metadata).family.stencils.length = 0 := by
    rw [new, List.length_replicate]
    exact Nat.mul_eq_zero.2 (Or.inl hempty)
  omega

/-- What a call can do: refuse and change nothing, pool its list and fail, or fill its slot. -/
theorem addStencil_cases {checks : Bool} {self self' : StencilFamilyBuilder} {call : StencilCall}
    {result : Except ExtractError Unit} (h : self.addStencil checks call = some (result, self')) :
    (self' = self ∧ ∃ expected got, result =
        .error (.familyMismatch call.name expected got call.relocations)) ∨
    (self.Admitted checks call ∧
      self'.bare = self.bare ∧
      self'.pool = (self.pool.intern Relocation.new call.relocations).2 ∧
      ((self'.family.stencils = self.family.stencils ∧ result = .error .tryFromInt) ∨
        (result = .ok () ∧ call.slot self.family.MAX_REGS < self.family.stencils.length ∧
          ∃ stencil, stencilOf call.code
              (self.pool.intern Relocation.new call.relocations).1 = some stencil ∧
            self'.family.stencils =
              self.family.stencils.set (call.slot self.family.MAX_REGS) stencil))) := by
  obtain ⟨name, code, io, wide, relocations⟩ := call
  simp only [addStencil, Option.bind_eq_bind, Option.pure_def] at h
  obtain ⟨holes, hholes, h⟩ := Option.bind_eq_some_iff.1 h
  obtain ⟨jumps, -, h⟩ := Option.bind_eq_some_iff.1 h
  split at h
  · obtain ⟨rfl, rfl⟩ := Prod.mk.inj (Option.some.inj h)
    -- a call of another shape is refused before the list is pooled
    exact Or.inl ⟨rfl, _, _, rfl⟩
  · next hshape =>
    simp only [not_or, ne_eq, Decidable.not_not, Nat.not_lt] at hshape
    have hadmitted : self.Admitted checks ⟨name, code, io, wide, relocations⟩ :=
      ⟨hshape.1.symm, hshape.2.1.symm, holesCounted_of_idCount hholes hshape.2.2.1⟩
    refine Or.inr ⟨hadmitted, ?_⟩
    split at h
    -- an index or a length is too large; the list stays pooled
    · next hnone =>
      obtain ⟨rfl, rfl⟩ := Prod.mk.inj (Option.some.inj h)
      exact ⟨rfl, rfl, Or.inl ⟨rfl, rfl⟩⟩
    · next stencil hstencil =>
      split at h
      · next hlt =>
        obtain ⟨rfl, rfl⟩ := Prod.mk.inj (Option.some.inj h)
        exact ⟨rfl, rfl, Or.inr ⟨rfl, hlt, stencil, hstencil, rfl⟩⟩
      -- a slot outside the table panics
      · cases h

section Step

variable {checks : Bool} {self self' : StencilFamilyBuilder} {call : StencilCall}

/-- Every call, successful or not, leaves the lists that stand in the pool where they are. -/
theorem addStencil_grows (hinterned : self.pool.Interned Relocation.new)
    {result : Except ExtractError Unit} (h : self.addStencil checks call = some (result, self')) :
    self'.bare = self.bare ∧ self'.pool.Interned Relocation.new ∧
      self.family.relocationData <+: self'.family.relocationData := by
  rcases addStencil_cases h with ⟨rfl, -⟩ | ⟨-, hbare, hpool, -⟩
  · exact ⟨rfl, hinterned, List.prefix_refl _⟩
  · have hgrows := Pool.prefix_intern Relocation.new call.relocations self.pool
    refine ⟨hbare, ?_, ?_⟩
    · rw [hpool]
      exact (hinterned.intern call.relocations).1
    · rw [← hpool] at hgrows
      exact hgrows

/-- A successful call fills its slot; in an empty pool its list is the first one. -/
theorem addStencil_ok (hinterned : self.pool.Interned Relocation.new)
    (h : self.addStencil checks call = some (.ok (), self')) :
    self.Admitted checks call ∧ call.slot self.family.MAX_REGS < self.family.stencils.length ∧
      (self.family.relocationData = [] →
        StandsAt self'.family.relocationData 0 (call.relocations ++ [Relocation.new])) ∧
      ∃ stencil, Stores self'.family.relocationData call stencil ∧
        self'.family.stencils =
          self.family.stencils.set (call.slot self.family.MAX_REGS) stencil := by
  rcases addStencil_cases h with ⟨-, expected, got, herr⟩ | ⟨hadmitted, -, hpool, hslot⟩
  · cases herr
  rcases hslot with ⟨-, herr⟩ | ⟨-, hlt, stencil, hstencil, hset⟩
  · cases herr
  have hstands := (hinterned.intern call.relocations).2
  rw [← hpool] at hstands
  refine ⟨hadmitted, hlt, ?_, stencil, stores_of_stencilOf hstencil hstands, hset⟩
  intro hempty
  -- nothing was pooled before, so the list of this call starts the pool
  have hzero : (self.pool.intern Relocation.new call.relocations).1 = 0 := by
    cases hlook : self.existingRelocations.lookup call.relocations with
    | none => simp [Pool.intern, pool, hlook, hempty]
    | some start =>
        have hlt := (hinterned call.relocations start hlook).lt_length
        rw [show self.pool.data = [] from hempty] at hlt
        cases hlt
  rw [← hzero]
  exact hstands

/-- A failing call leaves the table alone. -/
theorem addStencil_error {e : ExtractError} (h : self.addStencil checks call = some (.error e, self')) :
    self'.family.stencils = self.family.stencils := by
  rcases addStencil_cases h with ⟨rfl, -⟩ | ⟨-, -, -, hslot⟩
  · rfl
  · rcases hslot with ⟨htable, -⟩ | ⟨hok, -⟩
    · exact htable
    · cases hok

end Step

end StencilFamilyBuilder

/-! ## A run of calls -/

/-- The last call that filled slot `i`. -/
def lastCall (maxRegs : Nat) (calls : List StencilCall) (i : Nat) : Option StencilCall :=
  calls.reverse.find? fun call => call.slot maxRegs = i

theorem lastCall_concat (maxRegs : Nat) (calls : List StencilCall) (call : StencilCall) (i : Nat) :
    lastCall maxRegs (calls ++ [call]) i =
      if call.slot maxRegs = i then some call else lastCall maxRegs calls i := by
  rw [lastCall, List.reverse_append, List.reverse_singleton, List.singleton_append, List.find?_cons]
  by_cases h : call.slot maxRegs = i <;> simp [h, lastCall]

theorem lastCall_eq_some {maxRegs : Nat} {calls : List StencilCall} {i : Nat} {call : StencilCall}
    (h : lastCall maxRegs calls i = some call) : call ∈ calls ∧ call.slot maxRegs = i :=
  ⟨List.mem_reverse.1 (List.mem_of_find?_eq_some h), by simpa using List.find?_some h⟩

theorem lastCall_eq_none_iff {maxRegs : Nat} {calls : List StencilCall} {i : Nat} :
    lastCall maxRegs calls i = none ↔ ∀ call ∈ calls, call.slot maxRegs ≠ i := by
  simp [lastCall]

/-- A slot is empty, or holds the stencil of its last call. -/
def SlotHolds (data : List Relocation) : Option StencilCall → Stencil → Prop
  | none, stencil => stencil = default
  | some call, stencil => Stores data call stencil

theorem SlotHolds.extend {data data' : List Relocation} {last : Option StencilCall}
    {stencil : Stencil} (h : SlotHolds data last stencil) (hdata : data <+: data') :
    SlotHolds data' last stencil := by
  cases last with
  | none => exact h
  | some call => exact Stores.extend h hdata

/-- A successful call is the last one of its slot, and the other slots keep theirs. -/
theorem slotHolds_set {data data' : List Relocation} {maxRegs : Nat} {calls : List StencilCall}
    {call : StencilCall} {stencils : List Stencil} {stencil : Stencil} (hgrow : data <+: data')
    (hstores : Stores data' call stencil) (hlt : call.slot maxRegs < stencils.length)
    (hslots : ∀ i s, stencils[i]? = some s → SlotHolds data (lastCall maxRegs calls i) s) (i : Nat)
    (s : Stencil) (hs : (stencils.set (call.slot maxRegs) stencil)[i]? = some s) :
    SlotHolds data' (lastCall maxRegs (calls ++ [call]) i) s := by
  rw [List.getElem?_set] at hs
  rw [lastCall_concat]
  by_cases heq : call.slot maxRegs = i
  · rw [if_pos heq, if_pos hlt] at hs
    obtain rfl := Option.some.inj hs
    rw [if_pos heq]
    exact hstores
  · rw [if_neg heq] at hs
    rw [if_neg heq]
    exact (hslots i s hs).extend hgrow

namespace StencilFamilyBuilder

/-- The builder after a run of successful calls. -/
structure Filled (checks : Bool) (metadata : Metadata) (calls : List StencilCall)
    (b : StencilFamilyBuilder) : Prop where
  bare : b.bare = (new metadata).bare
  len : b.family.stencils.length = (new metadata).family.stencils.length
  interned : b.pool.Interned Relocation.new
  admitted : ∀ call ∈ calls, b.Admitted checks call
  inside : ∀ call ∈ calls, call.slot b.family.MAX_REGS < b.family.stencils.length
  slots : ∀ i stencil, b.family.stencils[i]? = some stencil →
    SlotHolds b.family.relocationData (lastCall b.family.MAX_REGS calls i) stencil
  /-- An empty slot walks the list of the first call. -/
  first : calls = [] ∧ b.family.relocationData = [] ∨
    ∃ call ∈ calls.head?, StandsAt b.family.relocationData 0 (call.relocations ++ [Relocation.new])

theorem filled_new (checks : Bool) (metadata : Metadata) :
    Filled checks metadata [] (new metadata) where
  bare := rfl
  len := rfl
  interned := Pool.interned_empty
  admitted := by simp
  inside := by simp
  slots := by
    intro i stencil h
    exact List.eq_of_mem_replicate (List.mem_of_getElem? h)
  first := Or.inl ⟨rfl, rfl⟩

theorem Admitted.of_bare {checks : Bool} {self self' : StencilFamilyBuilder} {call : StencilCall}
    (h : self.Admitted checks call) (hbare : self'.bare = self.bare) :
    self'.Admitted checks call := by
  obtain ⟨hins, houts, -, hholes⟩ := dimensions_of_bare hbare
  refine ⟨h.ins.trans hins.symm, h.outs.trans houts.symm, ?_⟩
  rw [hholes]
  exact h.holes

/-- One more successful call. -/
theorem Filled.addStencil {checks : Bool} {metadata : Metadata} {calls : List StencilCall}
    {self self' : StencilFamilyBuilder} (F : Filled checks metadata calls self) {call : StencilCall}
    (h : self.addStencil checks call = some (.ok (), self')) :
    Filled checks metadata (calls ++ [call]) self' := by
  obtain ⟨hbare, hinterned, hgrow⟩ := addStencil_grows F.interned h
  obtain ⟨hadmitted, hlt, hfirst, stencil, hstores, hset⟩ := addStencil_ok F.interned h
  have hmax := (dimensions_of_bare hbare).2.2.1
  constructor
  case bare => exact hbare.trans F.bare
  case len => rw [hset, List.length_set, F.len]
  case interned => exact hinterned
  case admitted =>
    intro c hc
    rcases List.mem_append.1 hc with hc | hc
    · exact (F.admitted c hc).of_bare hbare
    · obtain rfl := List.mem_singleton.1 hc
      exact hadmitted.of_bare hbare
  case inside =>
    intro c hc
    rw [hmax, hset, List.length_set]
    rcases List.mem_append.1 hc with hc | hc
    · exact F.inside c hc
    · obtain rfl := List.mem_singleton.1 hc
      exact hlt
  case slots =>
    rw [hmax, hset]
    exact slotHolds_set hgrow hstores hlt F.slots
  case first =>
    right
    rcases F.first with ⟨rfl, hempty⟩ | ⟨c, hc, hstart⟩
    · exact ⟨call, rfl, hfirst hempty⟩
    · refine ⟨c, ?_, hstart.extend hgrow⟩
      rw [Option.mem_def] at hc ⊢
      rw [List.head?_append, hc]
      rfl

/-- **A run of successful calls** fills the table. -/
theorem Filled.addStencils {checks : Bool} {metadata : Metadata} {done calls : List StencilCall}
    {self self' : StencilFamilyBuilder} (F : Filled checks metadata done self)
    (h : self.addStencils checks calls = some (.ok (), self')) :
    Filled checks metadata (done ++ calls) self' := by
  -- on the calls still to come; the ones already made are the ghost argument `done`
  induction calls generalizing done self with
  | nil =>
      obtain ⟨-, rfl⟩ := Prod.mk.inj (Option.some.inj h)
      rw [List.append_nil]
      exact F
  | cons call calls ih =>
      rw [StencilFamilyBuilder.addStencils, Option.bind_eq_bind] at h
      obtain ⟨⟨result, next⟩, hstep, h⟩ := Option.bind_eq_some_iff.1 h
      cases result with
      | error e => cases h
      | ok u =>
          have F' := ih (F.addStencil hstep) h
          rw [List.append_assoc, List.singleton_append] at F'
          exact F'

theorem filled_addStencils {checks : Bool} {metadata : Metadata} {calls : List StencilCall}
    {self : StencilFamilyBuilder}
    (h : (new metadata).addStencils checks calls = some (.ok (), self)) :
    Filled checks metadata calls self :=
  (filled_new checks metadata).addStencils h

end StencilFamilyBuilder

end Patchouly.Build
