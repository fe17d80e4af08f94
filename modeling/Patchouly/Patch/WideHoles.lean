import Patchouly.Patch.Pool
import Mathlib.Data.List.Induction

/-!
# Wide holes

`wide_holes_read_own` is about all runs of successful calls: the holes of the wide stencils read their
own values from the pool as long as the pool has at most `2 ^ 16` of them.
-/

set_option autoImplicit false

namespace Patchouly.Patch

open Patchouly.Lib Patchouly.Core

/-- A block with the holes of the wide stencils copied into it, in order. -/
structure Holed (MAX_REGS : Nat) where
  block : PatchBlock MAX_REGS
  holes : List WideHole

section Runs

variable {MAX_REGS : Nat}

/-- One successful call. -/
def Holed.next (checks : Bool) (h : Holed MAX_REGS) (c : Call MAX_REGS) : Option (Holed MAX_REGS) :=
  match h.block.call checks c, h.block.copied checks c,
    c.emission.stencil.select c.emission.inputs c.emission.outputs c.emission.holes with
  | some (.ok (), block), some (settled, _, relocs), some (some sel) =>
      some ⟨block, h.holes ++ wideHoles sel.wide settled.code.length c.emission.holes.toList
        (validEntries relocs)⟩
  | _, _, _ => none

/-- All sequences of successful calls. -/
def holedSystem (checks : Bool) (library : StencilLibrary MAX_REGS) :
    System (Holed MAX_REGS) (Call MAX_REGS) where
  init h := h = ⟨.new library, []⟩
  step h c h' := h.next checks c = some h'

/-- The constants are the values of the wide holes, and their entries count them. -/
structure HoleState (h : Holed MAX_REGS) : Prop where
  constants : h.block.constants = h.holes.map (·.value)
  entries : h.block.relocations.filter isConstant = constantEntries 0 h.holes

theorem HoleState.next {checks : Bool} {h h' : Holed MAX_REGS} {c : Call MAX_REGS}
    (hs : HoleState h) (hstep : h.next checks c = some h') : HoleState h' := by
  rw [Holed.next] at hstep
  split at hstep
  · next block settled code relocs sel hcall hcopied hselect =>
    obtain rfl := Option.some.inj hstep
    rcases PatchBlock.call_marked hcall with ⟨e, he, -⟩ | ⟨-, wide, settled', code', relocs', hcopy⟩
    · cases he
    · have hsame := hcopied.symm.trans (hcopy.copied hcall)
      simp only [Option.some.injEq, Prod.mk.injEq] at hsame
      obtain ⟨rfl, rfl, rfl⟩ := hsame
      obtain ⟨sel', hsel', rfl, -, -⟩ := hcopy.source
      obtain rfl := Option.some.inj (Option.some.inj (hselect.symm.trans hsel'))
      obtain ⟨-, -, hrel, hconst, -⟩ := PatchBlock.settleNext_cases hcopy.settle
      have heffect := patchEntries_entryEffect hcopy.patch
      have hvalues := heffect.constants
      have hentries := heffect.relocations
      rw [show _ = h.block.constants from hconst, hs.constants] at hvalues hentries
      rw [show _ = h.block.relocations from hrel, hs.entries, List.length_map] at hentries
      constructor
      · rw [hvalues, List.map_append]
      · rw [hentries, constantEntries_append, Nat.zero_add]
  · cases hstep

theorem holeState_of_reachable {checks : Bool} {library : StencilLibrary MAX_REGS}
    {h : Holed MAX_REGS} (hreach : (holedSystem checks library).Reachable h) : HoleState h := by
  refine System.Reachable.invariant ?_ ?_ hreach
  · rintro _ rfl
    exact ⟨rfl, rfl⟩
  · rintro h c h' - hs hstep
    exact hs.next hstep

/-- The `k`-th wide hole refers to a pool slot with its own value. -/
def ReadsOwn (b : PatchBlock MAX_REGS) (base : Usize) (off : Nat) (blocks : ProgramBlocks)
    (map map' : LoggedBuffer) (k : Nat) (hole : WideHole) : Prop :=
  ∃ n : U16, (b.relocations.filter isConstant)[k]? = some (.constant hole.offset hole.relocation n) ∧
    b.ResolvedTo base off blocks map map' (.constant hole.offset hole.relocation n)
      (b.slotAddress base off n.toNat) ∧
    readBytes map'.bytes (off + b.slotStart n.toNat) usizeSize = neBytes hole.value

section State

variable {h : Holed MAX_REGS} {k : Nat} {hole : WideHole}

/-- The slot of a hole has its value. -/
theorem HoleState.poolValue (hs : HoleState h) (hk : h.holes[k]? = some hole) :
    h.block.poolValues[k]? = some hole.value := by
  have hconst : h.block.constants[k]? = some hole.value := by
    rw [hs.constants, List.getElem?_map, hk]
    rfl
  rw [PatchBlock.poolValues, List.getElem?_append_left (List.getElem?_eq_some_iff.1 hconst).1, hconst]

theorem HoleState.entry (hs : HoleState h) (hk : h.holes[k]? = some hole) :
    (h.block.relocations.filter isConstant)[k]? =
      some (.constant hole.offset hole.relocation (BitVec.ofNat 16 k)) := by
  rw [hs.entries, constantEntries_getElem?, hk, Nat.zero_add]
  rfl

/-- The index of a hole is not cut. -/
theorem toNat_index (hholes : h.holes.length ≤ 2 ^ 16) (hk : h.holes[k]? = some hole) :
    (BitVec.ofNat 16 k).toNat = k :=
  toNat_ofNat_of_lt (Nat.lt_of_lt_of_le (List.getElem?_eq_some_iff.1 hk).1 hholes)

end State

/-- Every reader of the pool has recorded the number of its slot, cut to `u16`. -/
theorem target_of_reader {h : Holed MAX_REGS} (hs : HoleState h)
    (hlen : h.block.runtimeTrampolineSymbols ≠ [] → 0 < h.block.longJumpCode.length) {j : Nat}
    {d : DelayedRelocation} (hd : h.block.Reader j d) :
    d.target = .constant (BitVec.ofNat 16 j) ∧
      j < h.holes.length + h.block.runtimeTrampolineSymbols.length := by
  have hcount : h.block.constants.length = h.holes.length := by rw [hs.constants, List.length_map]
  cases hd with
  | hole hd =>
      rw [hs.entries, constantEntries_getElem?, Nat.zero_add] at hd
      obtain ⟨hole, hk, rfl⟩ := Option.map_eq_some_iff.1 hd
      have hlt := (List.getElem?_eq_some_iff.1 hk).1
      exact ⟨rfl, by omega⟩
  | trampoline hi hd ho =>
      have hlt := (List.getElem?_eq_some_iff.1 hi).1
      have hne : h.block.runtimeTrampolineSymbols ≠ [] := by
        intro hnil
        rw [hnil] at hlt
        cases hlt
      exact ⟨PatchBlock.target_of_trampoline (hlen hne) hi hd ho, by omega⟩

/-- The pool is small enough for 16-bit indices. -/
def SmallPool (h : Holed MAX_REGS) : Prop :=
  h.holes.length ≤ 2 ^ 16 ∧ (h.block.longJumpEntries = [] ∨
    h.holes.length + h.block.runtimeTrampolineSymbols.length ≤ 2 ^ 16)

/-- Two slots share an index when there are more of them than indices. -/
theorem smallPool_of_apart {h : Holed MAX_REGS} (hs : HoleState h)
    (hlen : h.block.runtimeTrampolineSymbols ≠ [] → 0 < h.block.longJumpCode.length)
    (hapart : ∀ j j' d d', h.block.Reader j d → h.block.Reader j' d' → d.target = d'.target → j = j') :
    SmallPool h := by
  have hcount : h.block.constants.length = h.holes.length := by rw [hs.constants, List.length_map]
  have hwrap : BitVec.ofNat 16 (2 ^ 16) = BitVec.ofNat 16 0 := by decide
  -- a reader of slot `2 ^ 16` has the index of slot 0
  have hclash : ∀ d d', h.block.Reader 0 d → h.block.Reader (2 ^ 16) d' → False := by
    intro d d' hd hd'
    have hsame : d.target = d'.target := by
      rw [(target_of_reader hs hlen hd).1, (target_of_reader hs hlen hd').1, hwrap]
    cases hapart 0 (2 ^ 16) d d' hd hd' hsame
  have hhole : ∀ k, k < h.holes.length → ∃ d, h.block.Reader k d := by
    intro k hk
    refine ⟨_, .hole (by rw [hs.entries, constantEntries_getElem?, List.getElem?_eq_getElem hk]; rfl)⟩
  have htrampoline : ∀ r ∈ h.block.longJumpEntries, ∀ i,
      i < h.block.runtimeTrampolineSymbols.length → ∃ d, h.block.Reader (h.holes.length + i) d := by
    intro r hr i hi
    rw [← hcount]
    refine ⟨.constant (h.block.code.length + i * h.block.longJumpCode.length) r
      (BitVec.ofNat 16 (h.block.constants.length + i)), .trampoline (List.getElem?_eq_getElem hi) ?_ ?_⟩
    · rw [PatchBlock.drop_delayedEntries, mem_trampolineEntries_iff]
      exact ⟨i, r, hi, hr, rfl⟩
    · exact (PatchBlock.trampolineStart_getElem (List.getElem?_eq_getElem hi)).symm
  have hholes : h.holes.length ≤ 2 ^ 16 := by
    apply Nat.le_of_not_lt
    intro hlt
    obtain ⟨d, hd⟩ := hhole 0 (by omega)
    obtain ⟨d', hd'⟩ := hhole (2 ^ 16) hlt
    exact hclash d d' hd hd'
  refine ⟨hholes, ?_⟩
  by_cases hnil : h.block.longJumpEntries = []
  · exact Or.inl hnil
  · right
    obtain ⟨r, hr⟩ := List.exists_mem_of_ne_nil _ hnil
    apply Nat.le_of_not_lt
    intro hlt
    obtain ⟨d', hd'⟩ := htrampoline r hr (2 ^ 16 - h.holes.length) (by omega)
    rw [Nat.add_sub_cancel' hholes] at hd'
    obtain ⟨d, hd⟩ : ∃ d, h.block.Reader 0 d := by
      by_cases h0 : 0 < h.holes.length
      · exact hhole 0 h0
      · obtain ⟨d, hd⟩ := htrampoline r hr 0 (by omega)
        rw [show h.holes.length + 0 = 0 by omega] at hd
        exact ⟨d, hd⟩
    exact hclash d d' hd hd'

/-- In a small pool different slots have different indices. -/
theorem apart_of_smallPool {h : Holed MAX_REGS} (hs : HoleState h)
    (hlen : h.block.runtimeTrampolineSymbols ≠ [] → 0 < h.block.longJumpCode.length)
    (hsmall : SmallPool h) {j j' : Nat} {d d' : DelayedRelocation} (hd : h.block.Reader j d)
    (hd' : h.block.Reader j' d') (hsame : d.target = d'.target) : j = j' := by
  obtain ⟨hholes, htotal⟩ := hsmall
  -- every slot that has a reader fits its index
  have hfits : ∀ j d, h.block.Reader j d → j < 2 ^ 16 := by
    intro j d hd
    have hbound := (target_of_reader hs hlen hd).2
    rcases htotal with hnil | htotal
    · cases hd with
      | hole hd =>
          rw [hs.entries, constantEntries_getElem?] at hd
          obtain ⟨hole, hk, -⟩ := Option.map_eq_some_iff.1 hd
          have hlt := (List.getElem?_eq_some_iff.1 hk).1
          omega
      | trampoline hi hd ho =>
          rw [PatchBlock.drop_delayedEntries, hnil, mem_trampolineEntries_iff] at hd
          obtain ⟨i, r, -, hr, -⟩ := hd
          cases hr
    · omega
  rw [(target_of_reader hs hlen hd).1, (target_of_reader hs hlen hd').1] at hsame
  have hindex := congrArg BitVec.toNat (DelayedTarget.constant.inj hsame)
  rw [toNat_ofNat_of_lt (hfits j d hd), toNat_ofNat_of_lt (hfits j' d' hd')] at hindex
  exact hindex

/-- The slots of the wide holes, where they have their own, are kept. -/
def HolesKept (h : Holed MAX_REGS) (base : Usize) (off : Nat) (blocks : ProgramBlocks) : Prop :=
  ∀ k hole, h.holes[k]? = some hole → h.block.SlotKept base off blocks k hole.value

/-- **Wide holes.** In every run of successful calls, for every base and offset at which `finalizeInto`
succeeds: every wide hole refers to a slot with its own value, and entries that were made for different
slots have different indices, exactly when the pool is small enough and no delayed field changes the
slots of the holes. -/
theorem wide_holes_read_own {checks : Bool} {library : StencilLibrary MAX_REGS} {h : Holed MAX_REGS}
    {base : Usize} {off : Nat} {blocks : ProgramBlocks} {map map' : LoggedBuffer}
    (hreach : (holedSystem checks library).Reachable h)
    (hfin : h.block.finalizeInto checks base off map blocks = some (.ok (), map')) :
    ((∀ k hole, h.holes[k]? = some hole → ReadsOwn h.block base off blocks map map' k hole) ∧
        ∀ j j' d d', h.block.Reader j d → h.block.Reader j' d' → d.target = d'.target → j = j') ↔
      SmallPool h ∧ HolesKept h base off blocks := by
  have hs := holeState_of_reachable hreach
  have hlen := fun hne => PatchBlock.longJumpCode_ne_nil hfin hne
  constructor
  · rintro ⟨hown, hapart⟩
    have hsmall := smallPool_of_apart hs hlen hapart
    refine ⟨hsmall, ?_⟩
    intro k hole hk
    obtain ⟨n, hn, -, hread⟩ := hown k hole hk
    -- the entry of the hole is the one at its number, so it reads this slot
    obtain rfl : BitVec.ofNat 16 k = n :=
      DelayedTarget.constant.inj (congrArg DelayedRelocation.target
        (Option.some.inj ((hs.entry hk).symm.trans hn)))
    rw [toNat_index hsmall.1 hk] at hread
    exact (PatchBlock.readBytes_slot_iff hfin (hs.poolValue hk)).1 hread
  · rintro ⟨hsmall, hkept⟩
    refine ⟨?_, fun j j' d d' => apart_of_smallPool hs hlen hsmall⟩
    intro k hole hk
    refine ⟨BitVec.ofNat 16 k, hs.entry hk, ?_, ?_⟩
    · apply PatchBlock.resolvedTo_of_mem hfin
      · exact List.mem_append_left _ (List.mem_of_mem_filter (List.mem_of_getElem? (hs.entry hk)))
      · rfl
    · rw [toNat_index hsmall.1 hk]
      exact (PatchBlock.readBytes_slot_iff hfin (hs.poolValue hk)).2 (hkept k hole hk)

end Runs

/-! ## Shared slots -/

section Sharing

/-- A wide stencil with one hole. -/
def wideFamily : StencilFamily 0 0 1 1 1 := ⟨[holeField, .new], [⟨11, 6, 0⟩, ⟨11, 6, 0⟩]⟩

def wideEmit (v : Usize) : Call 1 := .emit wideFamily nil nil (.singleton v)

def finalRet : Call 1 := .ret (retFamily : StencilFamily 0 0 1 0 0) nil nil

/-- A wide hole with the value, at the end of the block. -/
def Holed.emitted (h : Holed 1) (v : Usize) : Holed 1 where
  block := { h.block with
    code := h.block.code ++ [0xFF, 0x25, 0, 0, 0, 0]
    constants := h.block.constants ++ [v]
    relocations := h.block.relocations ++
      [.constant h.block.code.length holeField (BitVec.ofNat 16 h.block.constants.length)] }
  holes := h.holes ++ [⟨h.block.code.length, holeField, v⟩]

def Holed.returned (h : Holed 1) : Holed 1 :=
  ⟨{ h.block with code := h.block.code ++ [0xC3], ended := true }, h.holes⟩

/-- One wide hole for each value. -/
def filled (vs : List Usize) : Holed 1 := vs.foldl Holed.emitted ⟨.new sampleLibrary, []⟩

theorem filled_append (vs : List Usize) (v : Usize) : filled (vs ++ [v]) = (filled vs).emitted v := by
  rw [filled, List.foldl_append]
  rfl

/-- The library is the sample, the block is open, and all its delayed entries are wide holes. -/
structure Filled (h : Holed 1) : Prop where
  library : h.block.library = sampleLibrary
  ended : h.block.ended = false
  next : h.block.nextRelocations = []
  relocations : ∀ d ∈ h.block.relocations,
    isConstant d = true ∧ d.relocation = holeField ∧ d.fieldEnd ≤ h.block.code.length

theorem Filled.emitted {h : Holed 1} (hf : Filled h) (v : Usize) : Filled (h.emitted v) := by
  refine ⟨hf.library, hf.ended, hf.next, ?_⟩
  intro d hd
  have hlen : (h.emitted v).block.code.length = h.block.code.length + 6 := by
    simp only [Holed.emitted, List.length_append, List.length_cons, List.length_nil]
  rw [hlen]
  rcases List.mem_append.1 hd with hd | hd
  · obtain ⟨hconst, hfield, hend⟩ := hf.relocations d hd
    exact ⟨hconst, hfield, Nat.le_add_right_of_le hend⟩
  · obtain rfl := List.mem_singleton.1 hd
    have hfield : holeField.offset.toNat + holeField.fieldLen = 6 := by decide
    refine ⟨rfl, rfl, ?_⟩
    rw [DelayedRelocation.fieldEnd, DelayedRelocation.location, Nat.add_assoc]
    exact Nat.le_of_eq (congrArg (h.block.code.length + ·) hfield)

theorem Filled.next_emit {h : Holed 1} (hf : Filled h) (v : Usize) :
    h.next false (wideEmit v) = some (h.emitted v) := by
  obtain ⟨⟨lib, code, rel, const, next, ended⟩, holes⟩ := h
  obtain ⟨hlib, hended, hnext, -⟩ := hf
  simp only at hlib hended hnext
  subst hlib hended hnext
  rfl

theorem Filled.next_ret {h : Holed 1} (hf : Filled h) :
    h.next false finalRet = some h.returned := by
  obtain ⟨⟨lib, code, rel, const, next, ended⟩, holes⟩ := h
  obtain ⟨hlib, hended, hnext, -⟩ := hf
  simp only at hlib hended hnext
  subst hlib hended hnext
  have hstep : Holed.next false ⟨⟨sampleLibrary, code, rel, const, [], false⟩, holes⟩ finalRet =
      some ⟨⟨sampleLibrary, code ++ [0xC3], rel, const, [], true⟩, holes ++ []⟩ := rfl
  rw [List.append_nil] at hstep
  exact hstep

theorem filled_filled (vs : List Usize) : Filled (filled vs) ∧
    (holedSystem false sampleLibrary).Reachable (filled vs) ∧ (filled vs).holes.map (·.value) = vs := by
  induction vs using List.reverseRecOn with
  | nil => exact ⟨⟨rfl, rfl, rfl, fun _ h => nomatch h⟩, .init rfl, rfl⟩
  | append_singleton vs v ih =>
      obtain ⟨hf, hreach, hvalues⟩ := ih
      rw [filled_append]
      refine ⟨hf.emitted v, .step _ hreach (hf.next_emit v), ?_⟩
      rw [Holed.emitted, List.map_append, hvalues]
      rfl

theorem finalize_filled (vs : List Usize) : ∃ map', (filled vs).returned.block.finalizeInto false 0 0
      ⟨List.replicate (filled vs).returned.block.extent 0, []⟩ ⟨[]⟩ = some (.ok (), map') ∧
    (filled vs).returned.block.PoolUntouched := by
  obtain ⟨hf, -, -⟩ := filled_filled vs
  have hrelocs : ∀ d ∈ (filled vs).returned.block.relocations, isConstant d = true ∧
      d.relocation = holeField ∧ d.fieldEnd ≤ (filled vs).returned.block.code.length := by
    intro d hd
    obtain ⟨hconst, hfield, hend⟩ := hf.relocations d hd
    refine ⟨hconst, hfield, ?_⟩
    rw [Holed.returned, List.length_append]
    exact Nat.le_add_right_of_le hend
  obtain ⟨map', hfin⟩ := @PatchBlock.finalizeInto_of_constants 1 0 0 ⟨[]⟩ (filled vs).returned.block
    ⟨List.replicate (filled vs).returned.block.extent 0, []⟩ rfl hf.next
    (fun d hd => (hrelocs d hd).1)
    (fun d hd => by
      obtain ⟨-, hfield, hend⟩ := hrelocs d hd
      rw [hfield]
      exact ⟨⟨by decide, by decide⟩, hend⟩)
    (by rw [List.length_replicate, Nat.zero_add])
  refine ⟨map', hfin, PatchBlock.poolUntouched_of_inCode (fun d hd => (hrelocs d hd).2.2) ?_⟩
  intro hne
  obtain ⟨s, hs⟩ := List.exists_mem_of_ne_nil _ hne
  obtain ⟨d, hd, ht⟩ := PatchBlock.mem_runtimeTrampolineSymbols.1 hs
  have hconst := (hrelocs d hd).1
  rw [isConstant, ht] at hconst
  cases hconst

theorem wide_holes_read_own_one : ∃ map' : LoggedBuffer,
    ((∀ k hole, (filled [7]).returned.holes[k]? = some hole →
          ReadsOwn (filled [7]).returned.block 0 0 ⟨[]⟩
            ⟨List.replicate (filled [7]).returned.block.extent 0, []⟩ map' k hole) ∧
        ∀ j j' d d', (filled [7]).returned.block.Reader j d → (filled [7]).returned.block.Reader j' d' →
          d.target = d'.target → j = j') ↔
      SmallPool (filled [7]).returned ∧ HolesKept (filled [7]).returned 0 0 ⟨[]⟩ := by
  obtain ⟨hf, hreach, -⟩ := filled_filled [7]
  obtain ⟨map', hfin, -⟩ := finalize_filled [7]
  exact ⟨map', wide_holes_read_own (.step finalRet hreach hf.next_ret) hfin⟩

/-- Holes with the value 0 and one with the value 1 after them. When its number is cut to 0, the last
one reads the first slot. -/
theorem not_readsOwn_filled {N : Nat} (hpos : 0 < N) (hN : BitVec.ofNat 16 N = 0) {h : Holed 1}
    (hh : h = filled (List.replicate N 0 ++ [1])) {base : Usize} {off : Nat} {blocks : ProgramBlocks}
    {map map' : LoggedBuffer}
    (hfin : h.returned.block.finalizeInto false base off map blocks = some (.ok (), map'))
    (hfree : h.returned.block.PoolUntouched) :
    (holedSystem false sampleLibrary).Reachable h.returned ∧ ∃ hole, h.returned.holes[N]? = some hole ∧
      ¬ ReadsOwn h.returned.block base off blocks map map' N hole := by
  obtain ⟨hf, hreach, hvalues⟩ := filled_filled (List.replicate N 0 ++ [1])
  rw [← hh] at hf hreach hvalues
  have hreach' := System.Reachable.step finalRet hreach hf.next_ret
  have hs := holeState_of_reachable hreach'
  have hlast : (h.holes.map (·.value))[N]? = some 1 := by
    rw [hvalues, List.getElem?_append_right (by rw [List.length_replicate]), List.length_replicate,
      Nat.sub_self]
    rfl
  have hfirst : (h.holes.map (·.value))[0]? = some 0 := by
    rw [hvalues, List.getElem?_append_left (by rw [List.length_replicate]; exact hpos),
      List.getElem?_replicate_of_lt hpos]
  rw [List.getElem?_map] at hlast
  obtain ⟨hole, hhole, hvalue⟩ := Option.map_eq_some_iff.1 hlast
  refine ⟨hreach', hole, hhole, ?_⟩
  rintro ⟨n, hn, -, hslot⟩
  -- the recorded index is 0
  rw [hs.entries, constantEntries_getElem?, Nat.zero_add] at hn
  obtain ⟨hole', -, heq⟩ := Option.map_eq_some_iff.1 hn
  obtain rfl : BitVec.ofNat 16 N = n :=
    DelayedTarget.constant.inj (congrArg DelayedRelocation.target heq)
  have hpool : h.returned.block.poolValues[0]? = some 0 := by
    have hconst := hs.constants
    rw [PatchBlock.poolValues, List.getElem?_append_left]
    · rw [hconst]
      exact hfirst
    · rw [hconst]
      exact (List.getElem?_eq_some_iff.1 hfirst).1
  have hread := (PatchBlock.readBytes_slot_iff hfin hpool).2
    (PatchBlock.slotKept_of_poolUntouched hfree hpool)
  rw [hvalue, hN, show (0 : U16).toNat = 0 from rfl, hread] at hslot
  revert hslot
  decide

/-- With `2 ^ 16` holes before it, a hole reads the value of the first one. -/
theorem not_wide_holes_read_own : ¬ ∀ (h : Holed 1) (base : Usize) (off : Nat)
    (blocks : ProgramBlocks) (map map' : LoggedBuffer),
    (holedSystem false sampleLibrary).Reachable h →
      h.block.finalizeInto false base off map blocks = some (.ok (), map') →
        h.block.PoolUntouched →
          ∀ k hole, h.holes[k]? = some hole → ReadsOwn h.block base off blocks map map' k hole := by
  intro hall
  obtain ⟨map', hfin, hfree⟩ := finalize_filled (List.replicate 65536 0 ++ [1])
  obtain ⟨hreach, hole, hhole, hnot⟩ :=
    not_readsOwn_filled (by decide) (by decide) rfl hfin hfree
  exact hnot (hall _ _ _ _ _ _ hreach hfin hfree _ _ hhole)

end Sharing

end Patchouly.Patch
