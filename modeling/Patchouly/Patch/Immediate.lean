import Patchouly.Build.Linking
import Patchouly.Patch.Narrow

/-!
# Fields that are filled at copy time

`copy_and_patch` fills a field at once when its value is known: a narrow hole, a stack slot number, or
the address of a runtime function that fits. The address of the block is not known yet, so this is
right for absolute fields only.

Selection keeps relative holes out of the narrow stencil, and a relative call is delayed. A relative
field of a stack slot number is filled all the same, with the number less the field's position in the
block. An entry for a stack operand or a runtime function that does not exist panics. All else is filled
soundly (`filledSoundly_iff`).
-/

set_option autoImplicit false

namespace Patchouly.Patch

open Patchouly.Lib Patchouly.Core Patchouly.Build

/-- The value to write: in a relative field the operand less the field's position in the block. -/
def valueToWrite (checks : Bool) (offset : Nat) (relocation : Relocation) (value : Usize) :
    Option Usize :=
  if relocation.relative then
    plainSub checks value (BitVec.ofNat 64 (offset + relocation.offset.toNat))
  else some value

section Entry

variable {MAX_REGS : Nat} {checks wide : Bool} {offset : Nat} {vars holes : List Usize}
  {jumps : List JumpTarget} {b b' : PatchBlock MAX_REGS} {r : Relocation}

theorem tryApply_of_inlineValue {rtSymbols : List Usize} {dest : List U8} {value : Usize}
    (h : inlineValue false vars holes rtSymbols r = some value) :
    DelayedRelocation.tryApply checks dest offset r vars holes jumps rtSymbols =
      (valueToWrite checks offset r value).bind fun v =>
        (r.applyRaw dest offset v).map fun dest => (dest, none) := by
  have happly : (DelayedRelocation.applyNow checks dest offset r value).bind
      (fun dest => some (dest, (none : Option DelayedRelocation))) =
        (valueToWrite checks offset r value).bind fun v =>
          (r.applyRaw dest offset v).map fun dest => (dest, none) := by
    rw [DelayedRelocation.applyNow, Option.bind_assoc]
    simp only [valueToWrite, Option.map_eq_bind]
    rfl
  rw [← happly]
  rw [inlineValue] at h
  cases hinfo : r.patchInfo with
  | none =>
      rw [hinfo] at h
      cases h
  | some info =>
      rw [hinfo] at h
      cases info with
      | target i => cases h
      | stack i =>
          replace h : vars[i.toNat]? = some value := h
          simp only [DelayedRelocation.tryApply, hinfo, h, Option.bind_eq_bind, Option.bind_some,
            Option.pure_def]
      | hole i =>
          replace h : holes[i.toNat]? = some value := h
          simp only [DelayedRelocation.tryApply, hinfo, h, Option.bind_eq_bind, Option.bind_some,
            Option.pure_def]
      | runtime i =>
          obtain ⟨hvalue, hfits⟩ := Option.filter_eq_some_iff.1 h
          simp only [DelayedRelocation.tryApply, hinfo, hvalue, hfits, Option.bind_eq_bind,
            Option.bind_some, not_true_eq_false, if_false, Option.pure_def]

/-- A round of `copy_and_patch` with a known value computes what to write and fills the field. -/
theorem patchEntry_of_inlineValue {value : Usize}
    (h : inlineValue wide vars holes b.library.rtSymbols r = some value) :
    PatchBlock.patchEntry checks wide offset vars holes jumps b r =
      (valueToWrite checks offset r value).bind fun v =>
        (r.applyRaw b.code offset v).map fun code => { b with code } := by
  have hhole : ¬ (wide = true ∧ ∃ i, r.patchInfo = some (.hole i)) := by
    rintro ⟨rfl, i, hinfo⟩
    rw [inlineValue, hinfo] at h
    cases h
  have hnarrow : inlineValue false vars holes b.library.rtSymbols r = some value := by
    cases wide with
    | false => exact h
    | true =>
        rw [inlineValue] at h ⊢
        cases hinfo : r.patchInfo with
        | none =>
            rw [hinfo] at h
            cases h
        | some info =>
            rw [hinfo] at h
            cases info with
            | hole i => exact absurd ⟨rfl, i, hinfo⟩ hhole
            | stack | target | runtime => exact h
  obtain ⟨-, -, hentry⟩ := @of_not_wideHole MAX_REGS checks wide offset vars holes
    b.library.rtSymbols jumps r hhole b
  rw [hentry, tryApply_of_inlineValue hnarrow, Option.map_bind]
  congr 1
  funext v
  rw [Function.comp_apply, Option.map_map]
  rfl

/-- Without a known value no byte is written. -/
theorem code_of_patchEntry (h : inlineValue wide vars holes b.library.rtSymbols r = none)
    (hstep : PatchBlock.patchEntry checks wide offset vars holes jumps b r = some b') :
    b'.code = b.code := by
  have hcode := (patchEntry_effect hstep).code
  rw [inlineWrites, List.filterMap_cons, h] at hcode
  exact (Option.some.inj hcode).symm

/-- The operand that `try_apply` looks up is there. A hole of a wide stencil does not come to it. -/
def LookedUp (wide : Bool) (vars holes rtSymbols : List Usize) (r : Relocation) : Prop :=
  match r.patchInfo with
  | some (.hole i) => wide = false → (holes[i.toNat]?).isSome = true
  | some (.stack i) => (vars[i.toNat]?).isSome = true
  | some (.runtime i) => (rtSymbols[i.toNat]?).isSome = true
  | some (.target _) => True
  | none => True

/-- The operand is found, what a field is filled with at copy time can be computed, and it does not depend
on where the block will be. Every other field is left for later. -/
structure FilledSoundly (checks wide : Bool) (offset : Nat) (vars holes : List Usize)
    (jumps : List JumpTarget) (b : PatchBlock MAX_REGS) (r : Relocation) : Prop where
  found : LookedUp wide vars holes b.library.rtSymbols r
  computed : ∀ value, inlineValue wide vars holes b.library.rtSymbols r = some value →
    ∃ v, valueToWrite checks offset r value = some v ∧
      PatchBlock.patchEntry checks wide offset vars holes jumps b r =
        (r.applyRaw b.code offset v).map fun code => { b with code }
  absolute : ∀ value, inlineValue wide vars holes b.library.rtSymbols r = some value →
    r.relative = false
  left : inlineValue wide vars holes b.library.rtSymbols r = none → ∀ b',
    PatchBlock.patchEntry checks wide offset vars holes jumps b r = some b' → b'.code = b.code

/-- In an absolute field the operand is written as it is. -/
theorem filledSoundly_of_absolute (hfound : LookedUp wide vars holes b.library.rtSymbols r)
    (h : ∀ value, inlineValue wide vars holes b.library.rtSymbols r = some value →
      r.relative = false) : FilledSoundly checks wide offset vars holes jumps b r where
  found := hfound
  computed := by
    intro value hvalue
    have hwrite : valueToWrite checks offset r value = some value := by
      rw [valueToWrite, h value hvalue, if_neg Bool.false_ne_true]
    refine ⟨value, hwrite, ?_⟩
    rw [patchEntry_of_inlineValue hvalue, hwrite, Option.bind_some]
  absolute := h
  left := fun hnone _ hstep => code_of_patchEntry hnone hstep

end Entry

section Selected

variable {MAX_REGS IN OUT HOLES JUMPS : Nat}
  {stencils : StencilFamily IN OUT MAX_REGS HOLES JUMPS} {wide : Bool} {stencil : Stencil}
  {relocs : List Relocation} {inputs : Vector Location IN} {outputs : Vector Location OUT}
  {holes : Vector Usize HOLES}

/-- A relative entry of a selected stencil that is filled at once is a stack slot number. -/
theorem stack_of_relative
    (hselect : stencils.select inputs outputs holes = some (some ⟨wide, stencil⟩))
    (hrelocs : stencil.relocations stencils = some relocs) {r : Relocation}
    (hentry : r ∈ validEntries relocs) {vars rtSymbols : List Usize} {value : Usize}
    (hvalue : inlineValue wide vars holes.toList rtSymbols r = some value)
    (hrel : r.relative = true) : ∃ i, r.patchInfo = some (.stack i) := by
  rw [inlineValue] at hvalue
  cases hinfo : r.patchInfo with
  | none =>
      rw [hinfo] at hvalue
      cases hvalue
  | some info =>
      rw [hinfo] at hvalue
      cases info with
      | stack i => exact ⟨i, rfl⟩
      | target i => cases hvalue
      | hole i =>
          -- the narrow stencil is selected only if all its holes support their values
          cases wide with
          | true => cases hvalue
          | false =>
              obtain ⟨v, -, hfits⟩ := supportsValue_of_narrowFits
                (StencilFamily.narrowFits_of_select hselect hrelocs) hentry hinfo
              rw [(Relocation.of_supportsValue hfits).1] at hrel
              cases hrel
      | runtime i =>
          obtain ⟨-, hfits⟩ := Option.filter_eq_some_iff.1 hvalue
          rw [(Relocation.of_supportsValue hfits).1] at hrel
          cases hrel

/-- What immediate patching asks of an extracted entry: a stack operand or a runtime function exists, and
the field of a stack operand's number is absolute. -/
def Patchable (vars rtSymbols : List Usize) (info : ObjectRelocation) : PatchType → Prop
  | .stack i => i.toNat < vars.length ∧ info.kind = .absolute
  | .runtime i => i.toNat < rtSymbols.length
  | .hole _ => True
  | .target _ => True
  | .next => True

/-- **Immediate patching** of an extracted entry is sound exactly when its operand exists and it is not a
relative reference to the number of a stack operand. -/
theorem filledSoundly_iff (checks : Bool)
    (hselect : stencils.select inputs outputs holes = some (some ⟨wide, stencil⟩))
    (hrelocs : stencil.relocations stencils = some relocs) {r : Relocation}
    (hentry : r ∈ validEntries relocs) {place : Nat} {info : ObjectRelocation} {patch : PatchType}
    (hnew : newRelocation place info patch = .ok r) (jumps : Vector JumpTarget JUMPS) (offset : Nat)
    (b : PatchBlock MAX_REGS) :
    FilledSoundly checks wide offset (stackVars (inputs.toList ++ outputs.toList)) holes.toList
        jumps.toList b r ↔
      Patchable (stackVars (inputs.toList ++ outputs.toList)) b.library.rtSymbols info patch := by
  obtain ⟨hinfo, hrelative⟩ := info_of_newRelocation hnew
  constructor
  · intro h
    have hfound := h.found
    rw [LookedUp, hinfo] at hfound
    cases patch with
    | stack i =>
        obtain ⟨value, hvalue⟩ := Option.isSome_iff_exists.1 hfound
        refine ⟨(List.getElem?_eq_some_iff.1 hvalue).1, ?_⟩
        have habsolute := h.absolute value (by rw [inlineValue, hinfo]; exact hvalue)
        rw [hrelative] at habsolute
        exact not_not.1 (of_decide_eq_false habsolute)
    | runtime i =>
        obtain ⟨value, hvalue⟩ := Option.isSome_iff_exists.1 hfound
        exact (List.getElem?_eq_some_iff.1 hvalue).1
    | hole | target | next => exact trivial
  · intro h
    apply filledSoundly_of_absolute
    · rw [LookedUp, hinfo]
      cases patch with
      | stack i => exact Option.isSome_iff_exists.2 ⟨_, List.getElem?_eq_getElem h.1⟩
      | runtime i => exact Option.isSome_iff_exists.2 ⟨_, List.getElem?_eq_getElem h⟩
      | target | next => exact trivial
      | hole i =>
          -- the narrow stencil is selected only after all its holes were looked up
          rintro rfl
          obtain ⟨value, hvalue, -⟩ := supportsValue_of_narrowFits
            (StencilFamily.narrowFits_of_select hselect hrelocs) hentry hinfo
          exact Option.isSome_iff_exists.2 ⟨value, hvalue⟩
    · intro value hvalue
      by_contra hrel
      obtain ⟨i, hstack⟩ := stack_of_relative hselect hrelocs hentry hvalue
        (Bool.eq_true_of_not_eq_false hrel)
      rw [hinfo] at hstack
      cases patch with
      | stack k =>
          rw [hrelative, h.2] at hrel
          exact hrel rfl
      | hole | target | runtime | next => cases hstack

end Selected

/-- A stencil with one input on the stack and a 32-bit field for its number. -/
def slotFamily (r : Relocation) : StencilFamily 1 0 1 0 0 := ⟨[r, .new], [⟨0, 5, 0⟩]⟩

/-- The absolute field. -/
theorem filledSoundly_slot : FilledSoundly true false 7 [3] [] []
    (PatchBlock.new ⟨[], [], ⟨[], []⟩, []⟩ : PatchBlock 1) ⟨0x100020010001⟩ := by
  have hselect : (slotFamily ⟨0x100020010001⟩).select #v[.stack 3] #v[] #v[] =
      some (some ⟨false, ⟨0, 5, 0⟩⟩) := rfl
  have hnew : newRelocation 1 ⟨.absolute, .generic, 32, 0, .other⟩ (.stack 0) =
      .ok ⟨0x100020010001⟩ := rfl
  exact (filledSoundly_iff true hselect rfl (by decide) hnew #v[] 7 _).2 ⟨by decide, rfl⟩

/-- The relative field: the slot number is less than the field's position. -/
theorem not_filledSoundly : ¬ ∀ (stencils : StencilFamily 1 0 1 0 0) (inputs : Vector Location 1)
    (wide : Bool) (stencil : Stencil) (relocs : List Relocation) (r : Relocation) (place : Nat)
    (info : ObjectRelocation) (patch : PatchType) (offset : Nat) (b : PatchBlock 1),
    stencils.select inputs #v[] #v[] = some (some ⟨wide, stencil⟩) →
      stencil.relocations stencils = some relocs → r ∈ validEntries relocs →
      newRelocation place info patch = .ok r →
      FilledSoundly true wide offset (stackVars (inputs.toList ++ [])) [] [] b r := by
  intro h
  have hsound := h (slotFamily ⟨0x100020810001⟩) #v[.stack 0] false ⟨0, 5, 0⟩
    [⟨0x100020810001⟩, .new] ⟨0x100020810001⟩ 1 ⟨.relative, .generic, 32, 0, .other⟩ (.stack 0) 0
    (PatchBlock.new ⟨[], [], ⟨[], []⟩, []⟩) rfl rfl (by decide) rfl
  obtain ⟨v, hv, -⟩ := hsound.computed 0 rfl
  cases hv

end Patchouly.Patch
