import Patchouly.Patch.Calls
import Patchouly.Patch.Entries

/-!
# Hole values of narrow stencils

`select` takes the narrow stencil when every hole value fits its field, and `apply_raw` writes the
value with the addend added. `narrow_faithful` says when the field reads back as that sum: when the sum
fits as well. At the edge of the field's range the value fits and the sum does not.
-/

set_option autoImplicit false

namespace Patchouly.Core

open Patchouly.Lib

/-- The walk over the narrow stencil has checked every hole. -/
theorem supportsValue_of_narrowFits {holes : List Usize} {relocs : List Relocation}
    (h : narrowFits holes relocs = some true) {r : Relocation} (hr : r ∈ validEntries relocs) {i : U16}
    (hi : r.patchInfo = some (.hole i)) :
    ∃ value, holes[i.toNat]? = some value ∧ r.supportsValue value = true := by
  induction relocs with
  | nil => cases hr
  | cons r' relocs ih =>
      rw [narrowFits] at h
      split at h
      · next hinv =>
        have hnil : validEntries (r' :: relocs) = [] := by simp [validEntries, hinv]
        rw [hnil] at hr
        cases hr
      · next hinv =>
        have hcons : validEntries (r' :: relocs) = r' :: validEntries relocs := by
          simp [validEntries, hinv]
        rw [hcons, List.mem_cons] at hr
        -- only hole entries are tested
        split at h
        · next j hj =>
          obtain ⟨value, hvalue, h⟩ := Option.bind_eq_some_iff.1 h
          split at h
          · next hfits =>
            rcases hr with rfl | hr
            · obtain rfl : j = i := by simpa [hj] using hi
              exact ⟨value, hvalue, hfits⟩
            · exact ih h hr
          · cases h
        · next hnot =>
          rcases hr with rfl | hr
          · exact absurd hi (hnot i)
          · exact ih h hr

/-- A narrow selection is the narrow stencil, all of whose holes fit. -/
theorem StencilFamily.narrowFits_of_select {IN OUT MAX_REGS HOLES JUMPS : Nat}
    {self : StencilFamily IN OUT MAX_REGS HOLES JUMPS} {inputs : Vector Location IN}
    {outputs : Vector Location OUT} {holes : Vector Usize HOLES} {stencil : Stencil}
    {relocs : List Relocation} (h : self.select inputs outputs holes = some (some ⟨false, stencil⟩))
    (hrelocs : stencil.relocations self = some relocs) :
    narrowFits holes.toList relocs = some true := by
  have hnew : ∀ {wide : Bool} {s : Stencil} {sel : SelectedStencil},
      SelectedStencil.new wide s = some sel → sel = ⟨wide, s⟩ := by
    intro wide s sel hs
    rw [SelectedStencil.new] at hs
    split at hs
    · cases hs
    · exact (Option.some.inj hs).symm
  simp only [select, Option.bind_eq_bind, Option.pure_def] at h
  obtain ⟨s, -, h⟩ := Option.bind_eq_some_iff.1 h
  obtain ⟨relocs', hrelocs', h⟩ := Option.bind_eq_some_iff.1 h
  obtain ⟨narrow, hnarrow, h⟩ := Option.bind_eq_some_iff.1 h
  split at h
  · next hn =>
    obtain rfl := (SelectedStencil.mk.inj (hnew (Option.some.inj h))).2
    obtain rfl := Option.some.inj (hrelocs.symm.trans hrelocs')
    rw [hnarrow, hn]
  · obtain ⟨s', -, h⟩ := Option.bind_eq_some_iff.1 h
    cases (SelectedStencil.mk.inj (hnew (Option.some.inj h))).1

end Patchouly.Core

namespace Patchouly.Patch

open Patchouly.Lib Patchouly.Core

/-- The word a field stands for: zero-extended for `Generic`, sign-extended for `X86Signed`. -/
def readBack (r : Relocation) (bytes : List U8) : Usize :=
  BitVec.ofInt 64 (fieldValue r.signedEncoding bytes)

section Narrow

variable {MAX_REGS IN OUT HOLES JUMPS : Nat} {checks : Bool} {b b' : PatchBlock MAX_REGS}
  {stencils : StencilFamily IN OUT MAX_REGS HOLES JUMPS} {stencil : Stencil}
  {relocs : List Relocation} {inputs : Vector Location IN} {outputs : Vector Location OUT}
  {holes : Vector Usize HOLES} {jumps : Vector JumpTarget JUMPS} {offset : Nat}

/-- **Narrow selection.** When `select` returns the narrow stencil, the field of a hole reads back as
the hole value plus the addend exactly when this sum fits the field and no later entry of the stencil
changes the field. -/
theorem narrow_faithful
    (hselect : stencils.select inputs outputs holes = some (some ⟨false, stencil⟩))
    (hrelocs : stencil.relocations stencils = some relocs)
    (hcopy : b.copyAndPatch checks stencils stencil inputs outputs holes jumps false offset = some b')
    {pre post : List Relocation} {r : Relocation} (hentry : validEntries relocs = pre ++ r :: post)
    (hsize : r.size.toNat ∈ [8, 16, 32, 64]) {i : U16} (hi : r.patchInfo = some (.hole i))
    {value : Usize} (hvalue : holes.toList[i.toNat]? = some value) :
    readBack r (readBytes b'.code (offset + r.offset.toNat) r.fieldLen) =
        value + r.addend.signExtend 64 ↔
      r.supportsValue (value + r.addend.signExtend 64) = true ∧
        (inlineField offset r value).KeptBy (inlineWrites false offset
          (stackVars (inputs.toList ++ outputs.toList)) holes.toList b.library.rtSymbols post) := by
  obtain ⟨code, -, heffect⟩ := entryEffect_of_copyAndPatch hcopy hrelocs
  rw [hentry] at heffect
  -- the hole was checked, so its field is absolute and has a known encoding
  have hmem : r ∈ validEntries relocs := by rw [hentry]; exact List.mem_append_right _ List.mem_cons_self
  obtain ⟨value', hvalue', hfits⟩ := supportsValue_of_narrowFits
    (StencilFamily.narrowFits_of_select hselect hrelocs) hmem hi
  obtain ⟨hrel, henc⟩ := Relocation.of_supportsValue hfits
  have hlen : r.fieldLen ≤ 8 := by
    simp only [List.mem_cons, List.not_mem_nil, or_false] at hsize
    rw [Relocation.fieldLen]
    omega
  have hinline : inlineValue false (stackVars (inputs.toList ++ outputs.toList)) holes.toList
      b.library.rtSymbols r = some value := by
    simp only [inlineValue, hi, Bool.false_eq_true, if_false, hvalue]
  have hread := heffect.read_field hinline
  have hbytes : (inlineField offset r value).bytes =
      leBytes (value + r.addend.signExtend 64) r.fieldLen := by
    simp only [inlineField, hrel, Bool.false_eq_true, if_false, Relocation.fieldBytes]
  rw [hbytes] at hread
  -- the field lies inside the code
  have hfield : (readBytes b'.code (offset + r.offset.toNat) r.fieldLen).length = r.fieldLen := by
    have hwrite : inlineField offset r value ∈ inlineWrites false offset
        (stackVars (inputs.toList ++ outputs.toList)) holes.toList b.library.rtSymbols
          (pre ++ r :: post) :=
      List.mem_filterMap.2 ⟨r, List.mem_append_right _ List.mem_cons_self, by rw [hinline]; rfl⟩
    have hstop := applyWrites_fits heffect.code _ hwrite
    have hsame : b'.code.length = (b.code ++ code).length := applyWrites_length heffect.code
    simp only [inlineField, Write.stop, Relocation.fieldBytes_length] at hstop
    simp only [readBytes, List.length_take, List.length_drop]
    omega
  rw [readBack, ofInt_fieldValue_eq_iff (by rw [hfield]; exact hlen), hfield,
    Relocation.supportsValue_iff hsize henc hrel, ← hread]

end Narrow

/-! ## The edge of a field -/

/-- An absolute field of 8 bits at offset 1 for `Hole(0)`, with the addend 1. -/
def edgeField : Relocation := ⟨0x0000000108010001⟩

/-- A stencil with one hole, for a library with one register. -/
def edgeFamily : StencilFamily 0 0 1 1 1 := ⟨[edgeField, .new], [⟨0, 2, 0⟩, ⟨0, 2, 0⟩]⟩

def edgeBlock : PatchBlock 1 := .new ⟨[0xB0, 0], [0xEB, 0], ⟨[.new], [⟨0, 1, 0⟩]⟩, []⟩

def edgeCopy (hole : Usize) : Option (PatchBlock 1) :=
  edgeBlock.copyAndPatch true edgeFamily ⟨0, 2, 0⟩ nil nil (.singleton hole) (.singleton .next) false 0

theorem select_edgeFamily : edgeFamily.select #v[] #v[] #v[0xFE] = some (some ⟨false, ⟨0, 2, 0⟩⟩) := by
  decide +kernel

theorem narrow_faithful_edge : ∃ b', edgeCopy 0xFE = some b' ∧
    (readBack edgeField (readBytes b'.code 1 1) = 0xFE + edgeField.addend.signExtend 64 ↔
      edgeField.supportsValue (0xFE + edgeField.addend.signExtend 64) = true ∧
        (inlineField 0 edgeField 0xFE).KeptBy []) := by
  obtain ⟨b', hb'⟩ : ∃ b', edgeCopy 0xFE = some b' :=
    Option.isSome_iff_exists.1 (by decide +kernel)
  exact ⟨b', hb', @narrow_faithful 1 0 0 1 1 true edgeBlock b' edgeFamily ⟨0, 2, 0⟩
    [edgeField, .new] #v[] #v[] #v[0xFE] #v[.next] 0 select_edgeFamily rfl hb' [] [] edgeField rfl
    (by decide) 0 rfl 0xFE rfl⟩

/-- `0xFF` fits the field, and the field then holds `0x00` in place of `0x100`. -/
theorem not_narrow_faithful : ¬ ∀ (hole : Usize) (b' : PatchBlock 1),
    edgeFamily.select #v[] #v[] #v[hole] = some (some ⟨false, ⟨0, 2, 0⟩⟩) →
      edgeCopy hole = some b' →
        readBack edgeField (readBytes b'.code 1 1) = hole + edgeField.addend.signExtend 64 := by
  intro h
  have hselect : edgeFamily.select #v[] #v[] #v[0xFF] = some (some ⟨false, ⟨0, 2, 0⟩⟩) := by
    decide +kernel
  have hrun : (edgeCopy 0xFF).map (·.code) = some [0xB0, 0] := by decide +kernel
  obtain ⟨b', hb', hcode⟩ := Option.map_eq_some_iff.1 hrun
  have hread := h 0xFF b' hselect hb'
  rw [hcode] at hread
  revert hread
  decide

end Patchouly.Patch
