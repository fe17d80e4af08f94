import Patchouly.Patch.Plan
import Patchouly.Patch.Calls
import Mathlib.Data.BitVec

/-!
# Position independence of a block

The base address enters `finalizeInto` in three places: the address of the block, the address of
each trampoline, and the target of a jump. A relative relocation subtracts its own address, so the
base cancels (`resolve_apply_base`). `finalizeInto_base` compares a run at any base with the run at
base 0 without overflow checks: they agree as long as the end of the map is an address.
-/

set_option autoImplicit false

namespace Patchouly.Patch

open Patchouly.Lib Patchouly.Core

/-- The addresses of a map of `total` bytes at `base` do not wrap. -/
def Addressable (base : Usize) (total : Nat) : Prop := base.toNat + total < 2 ^ 64

instance (base : Usize) (total : Nat) : Decidable (Addressable base total) :=
  inferInstanceAs (Decidable (base.toNat + total < 2 ^ 64))

section Sums

variable {checks : Bool} {base : Usize} {total : Nat}

/-- Under the bound an address inside the map is computed, whatever the build. -/
theorem Addressable.place (h : Addressable base total) {n : Nat} (hn : n ≤ total) :
    plainAdd checks base (BitVec.ofNat 64 n) = some (base + BitVec.ofNat 64 n) := by
  apply plainAdd_of_lt
  have hle : (BitVec.ofNat 64 n).toNat ≤ n := by
    rw [BitVec.toNat_ofNat]
    exact Nat.mod_le _ _
  rw [Addressable] at h
  omega

theorem ofNat_add_ofNat (m n : Nat) :
    BitVec.ofNat 64 m + BitVec.ofNat 64 n = BitVec.ofNat 64 (m + n) := by
  rw [BitVec.ofNat_add]

/-- The same for an address computed from the address of the block. -/
theorem Addressable.place_add (h : Addressable base total) {off n : Nat} (hn : off + n ≤ total) :
    plainAdd checks (base + BitVec.ofNat 64 off) (BitVec.ofNat 64 n) =
      some (base + BitVec.ofNat 64 (off + n)) := by
  have hoff : (BitVec.ofNat 64 off).toNat = off := by
    rw [BitVec.toNat_ofNat]
    rw [Addressable] at h
    omega
  have hn' : (BitVec.ofNat 64 n).toNat = n := by
    rw [BitVec.toNat_ofNat]
    rw [Addressable] at h
    omega
  rw [plainAdd_of_lt, add_assoc, ofNat_add_ofNat]
  rw [BitVec.toNat_add, hoff, hn']
  rw [Addressable] at h
  omega

end Sums

/-- A field that leaves the map is not written. -/
theorem apply_eq_none {d : DelayedRelocation} {map : LoggedBuffer} {off : Nat} {value : Usize}
    (h : map.bytes.length < off + d.location) : d.apply map off value = none := by
  by_contra hne
  obtain ⟨map', hmap'⟩ := Option.ne_none_iff_exists'.1 hne
  obtain ⟨-, hcopy⟩ := DelayedRelocation.apply_eq_some hmap'
  simp only [ByteSlice.copyFromSlice, Option.map_eq_some_iff] at hcopy
  obtain ⟨bytes, hbytes, -⟩ := hcopy
  have hle := copyFromSlice_le hbytes
  rw [DelayedRelocation.fieldWrite_pos] at hle
  omega

theorem copyFromSlice_fits {map map' : LoggedBuffer} {pos : Nat} {src : List U8}
    (h : ByteSlice.copyFromSlice map pos src = some map') :
    pos + src.length ≤ map.bytes.length ∧ map'.bytes.length = map.bytes.length := by
  have hext := LoggedBuffer.extends_of_copyFromSlice h
  refine ⟨applyWrites_fits hext.bytes _ (List.mem_singleton.2 rfl), applyWrites_length hext.bytes⟩

theorem apply_length {d : DelayedRelocation} {map map' : LoggedBuffer} {off : Nat} {value : Usize}
    (h : d.apply map off value = some map') : map'.bytes.length = map.bytes.length :=
  (copyFromSlice_fits (DelayedRelocation.apply_eq_some h).2).2

/-- **The base cancels** in a relative field: the place and the target both move with it. -/
theorem resolve_apply_base {checks : Bool} {d : DelayedRelocation} {map : LoggedBuffer} {off : Nat}
    {base t : Usize} (hrel : d.relocation.relative = true)
    (hbase : Addressable base map.bytes.length) :
    ((d.resolve checks (base + BitVec.ofNat 64 off) (base + t)).bind fun v => d.apply map off v) =
      (d.resolve false (0 + BitVec.ofNat 64 off) t).bind fun v => d.apply map off v := by
  by_cases hfit : off + d.location ≤ map.bytes.length
  · have hzero : plainAdd false (0 + BitVec.ofNat 64 off) (BitVec.ofNat 64 d.location) =
        some (0 + BitVec.ofNat 64 (off + d.location)) := by
      simp [plainAdd, BitVec.ofNat_add]
    have hvalue : base + t - (base + BitVec.ofNat 64 (off + d.location)) =
        t - (0 + BitVec.ofNat 64 (off + d.location)) := by
      ring
    simp only [DelayedRelocation.resolve, hrel, if_true, hbase.place_add hfit, hzero,
      Option.map_some, Option.bind_some, hvalue]
  · -- both runs panic: the address of the place may be computed or not, the field is not there
    have hnone : ∀ v, d.apply map off v = none := fun v => apply_eq_none (by omega)
    simp only [hnone, Option.bind_fun_none]

/-- The parts of the state that do not depend on the base. -/
def TrampolineState.parts (st : TrampolineState) : LoggedBuffer × List DelayedRelocation × Nat :=
  (st.map, st.relocations, st.current)

namespace PatchBlock

/-- Every delayed entry that reads the constant pool reads one of the block's own constants. -/
def PoolIndices {MAX_REGS : Nat} (b : PatchBlock MAX_REGS) : Prop :=
  ∀ d ∈ b.relocations, ∀ n : U16, d.target = .constant n → n.toNat < b.constants.length

theorem PoolIndices.slot {MAX_REGS : Nat} {b : PatchBlock MAX_REGS} (h : b.PoolIndices)
    {d : DelayedRelocation} {n : U16} (hd : d ∈ b.delayedEntries) (hn : d.target = .constant n) :
    n.toNat < b.poolValues.length := by
  have hlen : b.poolValues.length = b.constants.length + b.runtimeTrampolineSymbols.length := by
    simp [poolValues]
  rw [hlen]
  rcases List.mem_append.1 hd with hd | hd
  · have := h d hd n hn
    omega
  · obtain ⟨-, n', hn', hlt⟩ := trampolineEntries_target hd
    rw [hn] at hn'
    cases hn'
    exact hlt

section Targets

variable {checks : Bool} {base : Usize} {total off constantBase : Nat}
  {addresses addresses₀ : List Usize} {blocks : ProgramBlocks}

/-- What the relocation loop needs to know about a target, for a map of `total` bytes. -/
structure TargetFits (base : Usize) (total off constantBase : Nat)
    (addresses addresses₀ : List Usize) (t : DelayedTarget) : Prop where
  constant : ∀ n : U16, t = .constant n → off + constantBase + n.toNat * usizeSize ≤ total
  runtime : ∀ s : U16, t = .runtime s →
    addresses[s.toNat]? = (addresses₀[s.toNat]?).map (base + ·)

/-- Every target moves with the base. -/
theorem targetAddress_base (hbase : Addressable base total)
    (hblocks : ∀ o ∈ blocks.offsets, o ≤ total) {t : DelayedTarget}
    (ht : TargetFits base total off constantBase addresses addresses₀ t) :
    targetAddress checks base (base + BitVec.ofNat 64 off) constantBase addresses blocks t =
      (targetAddress false 0 (0 + BitVec.ofNat 64 off) constantBase addresses₀ blocks t).map
        (Except.map (base + ·)) := by
  cases t with
  | block b =>
      simp only [targetAddress, ProgramBlocks.resolveTarget]
      cases ho : blocks.offsets[b.toNat]? with
      | none => rfl
      | some o =>
          simp only [hbase.place (hblocks o (List.mem_of_getElem? ho)), Option.map_some]
          simp [plainAdd, Except.map]
  | constant n =>
      have hfit := ht.constant n rfl
      have hslot : plainAdd checks (base + BitVec.ofNat 64 (off + constantBase))
          (BitVec.ofNat 64 (n.toNat * usizeSize)) =
            some (base + BitVec.ofNat 64 (off + constantBase + n.toNat * usizeSize)) :=
        hbase.place_add hfit
      simp only [targetAddress, hbase.place_add (show off + constantBase ≤ total by omega),
        Option.bind_eq_bind, Option.bind_some, hslot, Option.pure_def]
      simp [plainAdd, Except.map, BitVec.ofNat_add]
  | runtime s =>
      simp only [targetAddress, ht.runtime s rfl, Option.map_map]
      rfl
  | next => rfl

/-- The relocation loop at `base` and at 0. -/
theorem applyRelocations_base {relocs : List DelayedRelocation} {map : LoggedBuffer}
    (hbase : Addressable base map.bytes.length)
    (hblocks : ∀ o ∈ blocks.offsets, o ≤ map.bytes.length)
    (hrel : ∀ d ∈ relocs, d.relocation.relative = true)
    (ht : ∀ d ∈ relocs,
      TargetFits base map.bytes.length off constantBase addresses addresses₀ d.target) :
    applyRelocations checks base off (base + BitVec.ofNat 64 off) constantBase addresses blocks
        relocs map =
      applyRelocations false 0 off (0 + BitVec.ofNat 64 off) constantBase addresses₀ blocks
        relocs map := by
  induction relocs generalizing map with
  | nil => rfl
  | cons d rest ih =>
      have hd : targetAddress checks base _ _ _ _ _ = _ :=
        targetAddress_base hbase hblocks (ht d List.mem_cons_self)
      simp only [applyRelocations, Option.bind_eq_bind, hd]
      cases ht' : targetAddress false 0 (0 + BitVec.ofNat 64 off) constantBase addresses₀ blocks
          d.target with
      | none => rfl
      | some res =>
          cases res with
          | error e => rfl
          | ok t =>
              simp only [Option.map_some, Except.map, Option.bind_some]
              rw [← Option.bind_assoc, ← Option.bind_assoc,
                resolve_apply_base (hrel d List.mem_cons_self) hbase]
              apply Option.bind_congr
              intro map' hmap'
              -- the map keeps its length, so the rest of the loop meets the same bounds
              obtain ⟨value, -, happly⟩ := Option.bind_eq_some_iff.1 hmap'
              have hlen := apply_length happly
              apply ih
              · rw [hlen]
                exact hbase
              · rw [hlen]
                exact hblocks
              · exact fun d' hd' => hrel d' (List.mem_cons_of_mem _ hd')
              · rw [hlen]
                exact fun d' hd' => ht d' (List.mem_cons_of_mem _ hd')

end Targets

section Loops

variable {MAX_REGS : Nat} {checks : Bool} {self : PatchBlock MAX_REGS} {base : Usize} {off : Nat}

/-- The trampoline step at `base` and at 0: only the address differs. -/
theorem placeTrampoline_base {longJump : Stencil} {i : Nat} {symbol : U16}
    {st st₀ : TrampolineState} (hbase : Addressable base st.map.bytes.length)
    (hmap : st.map = st₀.map) (hcurrent : st.current = st₀.current)
    (hrelocs : st.relocations = st₀.relocations)
    (hlen : st.addresses.length = st₀.addresses.length) :
    self.placeTrampoline checks off (base + BitVec.ofNat 64 off) longJump i symbol st =
      (self.placeTrampoline false off (0 + BitVec.ofNat 64 off) longJump i symbol st₀).map
        fun out => { out with
          addresses := st.addresses.set symbol.toNat
            (base + BitVec.ofNat 64 (off + st.current)) } := by
  simp only [placeTrampoline, Option.bind_eq_bind, Option.pure_def, ← hmap, ← hcurrent, ← hrelocs,
    ← hlen]
  cases hcode : longJump.code self.library.code with
  | none => rfl
  | some code =>
      simp only [Option.bind_some]
      cases hcopy : ByteSlice.copyFromSlice st.map (off + st.current) code with
      | none => rfl
      | some map =>
          have hfit := copyFromSlice_fits hcopy
          have hzero : plainAdd false (0 + BitVec.ofNat 64 off) (BitVec.ofNat 64 st.current) =
              some (0 + BitVec.ofNat 64 (off + st.current)) := by
            simp [plainAdd, BitVec.ofNat_add]
          simp only [Option.bind_some, hbase.place_add (show off + st.current ≤ _ by omega), hzero]
          by_cases hlt : symbol.toNat < st.addresses.length
          · simp only [hlt, if_true]
            cases longJump.relocations self.library.longJump with
            | none => rfl
            | some relocs => rfl
          · simp only [hlt, if_false, Option.bind_none, Option.map_none]

/-- The trampoline loop at `base` and at 0: the states differ in the addresses only. -/
theorem placeTrampolines_base {longJump : Stencil} {i : Nat} {symbols : List U16}
    {st st₀ : TrampolineState} (hbase : Addressable base st.map.bytes.length)
    (hmap : st.map = st₀.map) (hcurrent : st.current = st₀.current)
    (hrelocs : st.relocations = st₀.relocations)
    (hlen : st.addresses.length = st₀.addresses.length) :
    (self.placeTrampolines checks off (base + BitVec.ofNat 64 off) longJump i symbols st).map
        TrampolineState.parts =
      (self.placeTrampolines false off (0 + BitVec.ofNat 64 off) longJump i symbols st₀).map
        TrampolineState.parts := by
  induction symbols generalizing i st st₀ with
  | nil => simp only [placeTrampolines, Option.map_some, TrampolineState.parts, hmap, hcurrent, hrelocs]
  | cons symbol rest ih =>
      simp only [placeTrampolines,
        placeTrampoline_base hbase hmap hcurrent hrelocs hlen]
      cases hstep : self.placeTrampoline false off (0 + BitVec.ofNat 64 off) longJump i symbol st₀ with
      | none => rfl
      | some out =>
          simp only [Option.map_some, Option.bind_some]
          obtain ⟨code, map, relocs, -, hcopy, -, -, hout⟩ := placeTrampoline_cases hstep
          apply ih
          · rw [hout]
            simp only
            rw [(copyFromSlice_fits hcopy).2, ← hmap]
            exact hbase
          · rfl
          · rfl
          · rfl
          · rw [hout]
            simp only [List.length_set, hlen]

/-- The end of `finalizeInto` at `base` and at 0. -/
theorem finalizePool_base {map : LoggedBuffer} {blocks : ProgramBlocks} {st st₀ : TrampolineState}
    (hst : Trampolined self off (base + BitVec.ofNat 64 off) map st)
    (hst₀ : Trampolined self off (0 + BitVec.ofNat 64 off) map st₀) (hmap : st.map = st₀.map)
    (hbase : Addressable base map.bytes.length)
    (hblocks : ∀ o ∈ blocks.offsets, o ≤ map.bytes.length)
    (hrel : ∀ d ∈ self.delayedEntries, d.relocation.relative = true) (hslots : self.PoolIndices) :
    self.finalizePool checks base off (base + BitVec.ofNat 64 off) blocks st =
      self.finalizePool false 0 off (0 + BitVec.ofNat 64 off) blocks st₀ := by
  simp only [finalizePool, Option.bind_eq_bind, hst.current, hst₀.current, hst.relocations,
    hst₀.relocations, hmap]
  apply Option.bind_congr
  intro m1 hm1
  apply Option.bind_congr
  intro symbols hsymbols
  apply Option.bind_congr
  intro m2 hm2
  have hpool := hst₀.map.trans (pool_extends hm1 hsymbols hm2)
  have hlen : m2.bytes.length = map.bytes.length := applyWrites_length hpool.bytes
  apply applyRelocations_base
  · rw [hlen]
    exact hbase
  · rw [hlen]
    exact hblocks
  · exact hrel
  · intro d hd
    constructor
    · intro n hn
      -- the slot was filled, so it lies in the map
      have hv := List.getElem?_eq_getElem (hslots.slot hd hn)
      have hfit := applyWrites_fits hpool.bytes _ (List.mem_append_right _ (mem_poolWrites hv))
      simp only [Write.stop] at hfit
      rw [hlen]
      rw [Nat.mul_comm n.toNat]
      omega
    · intro s hs
      have hmem := mem_runtime_of_delayedEntries hd hs
      rw [hst.addresses s hmem, hst₀.addresses s hmem, Option.map_some]
      congr 1
      ring

/-- **`finalizeInto` does not depend on the base** of a program whose delayed relocations are
relative. -/
theorem finalizeInto_base {map : LoggedBuffer} {blocks : ProgramBlocks}
    (hbase : Addressable base map.bytes.length) (hoff : off ≤ map.bytes.length)
    (hblocks : ∀ o ∈ blocks.offsets, o ≤ map.bytes.length)
    (hrel : (self.runtimeTrampolineSymbols ≠ [] → ∃ lj, self.longJumpStencil = some (some lj)) →
      ∀ d ∈ self.delayedEntries, d.relocation.relative = true) (hslots : self.PoolIndices) :
    self.finalizeInto checks base off map blocks = self.finalizeInto false 0 off map blocks := by
  have hzero : plainAdd false 0 (BitVec.ofNat 64 off) = some (0 + BitVec.ofNat 64 off) := rfl
  simp only [finalizeInto, hbase.place hoff, hzero, Option.bind_eq_bind, Option.bind_some,
    Option.pure_def]
  split
  · rfl
  · split
    · rfl
    · apply Option.bind_congr
      intro m hm
      have hcode := LoggedBuffer.extends_of_copyFromSlice hm
      have hlen := (copyFromSlice_fits hm).2
      split
      · next hempty =>
        have hnil : self.runtimeTrampolineSymbols = [] := by simpa using hempty
        exact finalizePool_base (trampolined_nil hcode hnil) (trampolined_nil hcode hnil) rfl hbase
          hblocks (hrel fun hne => absurd hnil hne) hslots
      · apply Option.bind_congr
        intro selected hselected
        cases selected with
        | none => rfl
        | some lj =>
            -- both loops end together; their states differ in the addresses
            have hboth := @placeTrampolines_base _ checks self base off lj 0
              self.runtimeTrampolineSymbols
              ⟨m, List.replicate self.library.rtSymbols.length 0, [], self.code.length⟩ _
              (by rw [hlen]; exact hbase) rfl rfl rfl rfl
            simp only
            cases hrun₀ : self.placeTrampolines false off (0 + BitVec.ofNat 64 off) lj 0
                self.runtimeTrampolineSymbols
                ⟨m, List.replicate self.library.rtSymbols.length 0, [], self.code.length⟩ with
            | none =>
                rw [hrun₀, Option.map_none, Option.map_eq_none_iff] at hboth
                rw [hboth]
                rfl
            | some st₀ =>
                rw [hrun₀, Option.map_some] at hboth
                obtain ⟨st, hrun, hparts⟩ := Option.map_eq_some_iff.1 hboth
                rw [hrun]
                exact finalizePool_base (trampolined_of_placeTrampolines hcode hselected hrun)
                  (trampolined_of_placeTrampolines hcode hselected hrun₀)
                  (congrArg (·.1) hparts) hbase hblocks (hrel fun _ => ⟨lj, hselected⟩) hslots

end Loops

section Relative

variable {MAX_REGS : Nat}

/-- The fields that a trampoline copies from the long jump are relative. -/
def LongJumpRelative (library : StencilLibrary MAX_REGS) : Prop :=
  ∀ sel ∈ (PatchBlock.new library).longJumpStencil, ∀ lj ∈ sel,
    ∀ relocs ∈ lj.relocations library.longJump, ∀ r ∈ holeZeroEntries relocs, r.relative = true

instance (library : StencilLibrary MAX_REGS) : Decidable (LongJumpRelative library) :=
  inferInstanceAs (Decidable (∀ sel ∈ (PatchBlock.new library).longJumpStencil, ∀ lj ∈ sel,
    ∀ relocs ∈ lj.relocations library.longJump, ∀ r ∈ holeZeroEntries relocs, r.relative = true))

theorem delayedEntries_relative {b : PatchBlock MAX_REGS}
    (hrel : ∀ d ∈ b.relocations, d.relocation.relative = true)
    (hlong : LongJumpRelative b.library)
    (hlj : b.runtimeTrampolineSymbols ≠ [] → ∃ lj, b.longJumpStencil = some (some lj)) :
    ∀ d ∈ b.delayedEntries, d.relocation.relative = true := by
  intro d hd
  rcases List.mem_append.1 hd with hd | hd
  · exact hrel d hd
  · obtain ⟨hmem, -⟩ := trampolineEntries_target hd
    obtain ⟨lj, hsel⟩ := hlj (symbols_ne_nil_of_trampolineEntry hd)
    rw [longJumpEntries, show b.longJumpOrEmpty = lj by simp [longJumpOrEmpty, hsel]] at hmem
    cases hrelocs : lj.relocations b.library.longJump with
    | none => simp [hrelocs, holeZeroEntries, validEntries] at hmem
    | some relocs =>
        rw [hrelocs] at hmem
        exact hlong _ hsel _ rfl _ hrelocs _ hmem

end Relative

/-! ## Pool indices -/

section Indices

variable {MAX_REGS : Nat} {checks : Bool} {b b' : PatchBlock MAX_REGS}

theorem index_of_filedFor {library : StencilLibrary MAX_REGS} {constants holes : List Usize}
    {jumps : List JumpTarget} {d : DelayedRelocation} {n : U16}
    (h : FiledFor library constants holes jumps d) (hn : d.target = .constant n) :
    n.toNat < constants.length := by
  cases h with
  | block hi hj => cases hn
  | next hi hj => cases hn
  | runtime hs hlt => cases hn
  | @constant _ _ _ index value hi hv hc =>
      cases hn
      have hlt := (List.getElem?_eq_some_iff.1 hc).1
      have hle : (BitVec.ofNat 16 index).toNat ≤ index := by
        rw [BitVec.toNat_ofNat]
        exact Nat.mod_le _ _
      omega

/-- A call keeps the indices inside the pool. -/
theorem PoolIndices.call {c : Call MAX_REGS} {res : Except PatchError Unit} (hi : b.PoolIndices)
    (h : b.call checks c = some (res, b')) : b'.PoolIndices := by
  rcases call_cases h with ⟨e, -, ended, rfl⟩ | ⟨-, wide, settled, code, relocs, hcopy⟩
  · exact hi
  · obtain ⟨-, -, hrel, hconst, -⟩ := settleNext_cases hcopy.settle
    obtain ⟨new, hnew, -, hfiled⟩ := hcopy.effect.relocations
    obtain ⟨more, hmore⟩ := hcopy.effect.constants
    intro d hd n hn
    rw [hnew] at hd
    rcases List.mem_append.1 hd with hd | hd
    · -- an older entry: the pool only grows
      rw [show _ = b.relocations from hrel] at hd
      have hlt := hi d hd n hn
      rw [hmore, List.length_append]
      have hold : settled.constants.length = b.constants.length := congrArg List.length hconst
      simp only
      omega
    · exact index_of_filedFor (hfiled d hd).2.2 hn

/-- **In every run the constant entries name slots of the block's own constants.** -/
theorem poolIndices_of_reachable {library : StencilLibrary MAX_REGS}
    (h : (blockSystem checks library).Reachable b) : b.PoolIndices := by
  refine System.Reachable.invariant ?_ ?_ h
  · rintro _ rfl d hd
    cases hd
  · rintro b c b' - hi ⟨res, hc⟩
    exact hi.call hc

end Indices

end PatchBlock

end Patchouly.Patch
