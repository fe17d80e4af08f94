import Patchouly.Patch.Emission

/-!
# The entries of a copied stencil

What the loop of `copy_and_patch` does, as functions of the stencil's relocation entries.

* `inlineWrites` are the fields it patches at once, in order (`patchEntries_code`).
* `wideHoles` are the holes it moves to the constant pool. Their values are the new constants, and
  `constantEntries` are the delayed entries that read them (`patchEntries_constants`).

`read_field` is the field of one entry after the copy.
-/

set_option autoImplicit false

namespace Patchouly.Patch

open Patchouly.Lib Patchouly.Core

variable {MAX_REGS : Nat}

section Inline

variable (wide : Bool) (offset : Nat) (vars holes rtSymbols : List Usize)

/-- The value an entry is patched with at once. A jump waits, and so does a hole of a wide stencil and
a runtime symbol that does not fit. -/
def inlineValue (r : Relocation) : Option Usize :=
  match r.patchInfo with
  | some (.hole i) => if wide then none else holes[i.toNat]?
  | some (.stack i) => vars[i.toNat]?
  | some (.runtime i) => (rtSymbols[i.toNat]?).filter r.supportsValue
  | _ => none

/-- The slice assignment for a value: a relative one loses its place inside the block. -/
def inlineField (r : Relocation) (value : Usize) : Write :=
  ⟨offset + r.offset.toNat, r.fieldBytes
    (if r.relative then value - BitVec.ofNat 64 (offset + r.offset.toNat) else value)⟩

def inlineWrites (entries : List Relocation) : List Write :=
  entries.filterMap fun r => (inlineValue wide vars holes rtSymbols r).map (inlineField offset r)

end Inline

/-- A hole of a wide stencil. -/
structure WideHole where
  offset : Nat
  relocation : Relocation
  value : Usize

/-- The holes that a copied stencil leaves to the constant pool. -/
def wideHoles (wide : Bool) (offset : Nat) (holes : List Usize) (entries : List Relocation) :
    List WideHole :=
  if wide then
    entries.filterMap fun r =>
      match r.patchInfo with
      | some (.hole i) => (holes[i.toNat]?).map fun value => ⟨offset, r, value⟩
      | _ => none
  else []

def isConstant (d : DelayedRelocation) : Bool :=
  match d.target with
  | .constant _ => true
  | _ => false

/-- The delayed entries of wide holes, for pool slots from `n` on. The recorded index is cut to
`u16`. -/
def constantEntries : Nat → List WideHole → List DelayedRelocation
  | _, [] => []
  | n, hole :: rest =>
      .constant hole.offset hole.relocation (BitVec.ofNat 16 n) :: constantEntries (n + 1) rest

theorem constantEntries_append (n : Nat) (xs ys : List WideHole) :
    constantEntries n (xs ++ ys) = constantEntries n xs ++ constantEntries (n + xs.length) ys := by
  induction xs generalizing n with
  | nil => rfl
  | cons x xs ih =>
      have hlen : n + 1 + xs.length = n + (x :: xs).length := by
        rw [List.length_cons]
        omega
      rw [List.cons_append, constantEntries, constantEntries, ih, hlen, List.cons_append]

theorem constantEntries_getElem? (n k : Nat) (xs : List WideHole) :
    (constantEntries n xs)[k]? = (xs[k]?).map fun hole =>
      .constant hole.offset hole.relocation (BitVec.ofNat 16 (n + k)) := by
  induction xs generalizing n k with
  | nil => rfl
  | cons x xs ih =>
      cases k with
      | zero => rfl
      | succ k =>
          have hn : n + 1 + k = n + (k + 1) := by omega
          rw [constantEntries, List.getElem?_cons_succ, ih, hn, List.getElem?_cons_succ]

/-! ## One entry -/

section Entry

variable {checks wide : Bool} {offset : Nat} {vars holes rtSymbols : List Usize}
  {jumps : List JumpTarget} {r : Relocation}

theorem applyNow_write {dest dest' : List U8} {value : Usize}
    (h : DelayedRelocation.applyNow checks dest offset r value = some dest') :
    applyWrites [inlineField offset r value] dest = some dest' := by
  rw [DelayedRelocation.applyNow] at h
  obtain ⟨v, hv, h⟩ := Option.bind_eq_some_iff.1 h
  obtain ⟨-, -, hcopy⟩ := Relocation.applyRaw_eq_some h
  have hvalue : v =
      if r.relative then value - BitVec.ofNat 64 (offset + r.offset.toNat) else value := by
    split at hv
    · next hrel => rw [if_pos hrel, eq_of_plainSub hv]
    · next hrel => rw [if_neg hrel, Option.some.inj hv]
  rw [inlineField, ← hvalue]
  exact Option.bind_eq_some_iff.2 ⟨dest', hcopy, rfl⟩

/-- What `tryApply` does to the bytes and which targets it returns. -/
theorem tryApply_inline {dest : List U8} {out : List U8 × Option DelayedRelocation}
    (h : DelayedRelocation.tryApply checks dest offset r vars holes jumps rtSymbols = some out) :
    applyWrites (inlineWrites false offset vars holes rtSymbols [r]) dest = some out.1 ∧
      ∀ d, out.2 = some d → isConstant d = false := by
  simp only [DelayedRelocation.tryApply, Option.bind_eq_bind, Option.pure_def] at h
  obtain ⟨info, hinfo, h⟩ := Option.bind_eq_some_iff.1 h
  cases info with
  | hole i =>
      obtain ⟨value, hvalue, h⟩ := Option.bind_eq_some_iff.1 h
      obtain ⟨d, hd, h⟩ := Option.bind_eq_some_iff.1 h
      obtain rfl := Option.some.inj h
      simp only [inlineWrites, List.filterMap_cons, inlineValue, hinfo, Bool.false_eq_true, if_false,
        hvalue, Option.map_some, List.filterMap_nil]
      exact ⟨applyNow_write hd, by simp⟩
  | stack i =>
      obtain ⟨value, hvalue, h⟩ := Option.bind_eq_some_iff.1 h
      obtain ⟨d, hd, h⟩ := Option.bind_eq_some_iff.1 h
      obtain rfl := Option.some.inj h
      simp only [inlineWrites, List.filterMap_cons, inlineValue, hinfo, hvalue, Option.map_some,
        List.filterMap_nil]
      exact ⟨applyNow_write hd, by simp⟩
  -- a jump is delayed, so nothing is written now
  | target i =>
      obtain ⟨j, -, h⟩ := Option.bind_eq_some_iff.1 h
      simp only [inlineWrites, List.filterMap_cons, inlineValue, hinfo, Option.map_none,
        List.filterMap_nil]
      cases j with
      | next =>
          obtain rfl := Option.some.inj h
          exact ⟨rfl, fun d hd => by rw [← Option.some.inj hd]; rfl⟩
      | target t =>
          obtain rfl := Option.some.inj h
          exact ⟨rfl, fun d hd => by rw [← Option.some.inj hd]; rfl⟩
  | runtime i =>
      obtain ⟨value, hvalue, h⟩ := Option.bind_eq_some_iff.1 h
      simp only [inlineWrites, List.filterMap_cons, inlineValue, hinfo, hvalue, List.filterMap_nil]
      -- a runtime address is written at once where the field can hold it
      split at h
      · next hfits =>
        obtain rfl := Option.some.inj h
        rw [Option.filter_some, if_neg hfits]
        exact ⟨rfl, fun d hd => by rw [← Option.some.inj hd]; rfl⟩
      · next hfits =>
        obtain ⟨d, hd, h⟩ := Option.bind_eq_some_iff.1 h
        obtain rfl := Option.some.inj h
        rw [Option.filter_some, if_pos (not_not.1 hfits)]
        exact ⟨applyNow_write hd, by simp⟩

/-- The parts of a block that an entry is accounted for in. -/
structure EntryEffect (wide : Bool) (offset : Nat) (vars holes : List Usize)
    (entries : List Relocation) (b b' : PatchBlock MAX_REGS) : Prop where
  library : b'.library = b.library
  code : applyWrites (inlineWrites wide offset vars holes b.library.rtSymbols entries) b.code =
    some b'.code
  constants : b'.constants = b.constants ++ (wideHoles wide offset holes entries).map (·.value)
  relocations : b'.relocations.filter isConstant = b.relocations.filter isConstant ++
    constantEntries b.constants.length (wideHoles wide offset holes entries)

theorem EntryEffect.nil (wide : Bool) (offset : Nat) (vars holes : List Usize)
    (b : PatchBlock MAX_REGS) : EntryEffect wide offset vars holes [] b b := by
  refine ⟨rfl, rfl, ?_, ?_⟩
  · cases wide <;> simp [wideHoles]
  · cases wide <;> simp [wideHoles, constantEntries]

theorem wideHoles_append (wide : Bool) (offset : Nat) (holes : List Usize)
    (xs ys : List Relocation) : wideHoles wide offset holes (xs ++ ys) =
      wideHoles wide offset holes xs ++ wideHoles wide offset holes ys := by
  cases wide with
  | false => rfl
  | true => exact List.filterMap_append

theorem EntryEffect.trans {xs ys : List Relocation} {a b c : PatchBlock MAX_REGS}
    (h : EntryEffect wide offset vars holes xs a b) (k : EntryEffect wide offset vars holes ys b c) :
    EntryEffect wide offset vars holes (xs ++ ys) a c := by
  refine ⟨k.library.trans h.library, ?_, ?_, ?_⟩
  · have hcode := k.code
    rw [h.library] at hcode
    rw [inlineWrites, List.filterMap_append, applyWrites_append]
    exact Option.bind_eq_some_iff.2 ⟨b.code, h.code, hcode⟩
  · rw [k.constants, h.constants, wideHoles_append, List.map_append, List.append_assoc]
  · rw [k.relocations, h.relocations, h.constants, wideHoles_append, constantEntries_append,
      List.length_append, List.length_map, List.append_assoc]

/-- An entry that does not go to the constant pool. -/
theorem of_not_wideHole (hhole : ¬ (wide = true ∧ ∃ i, r.patchInfo = some (.hole i)))
    {b : PatchBlock MAX_REGS} :
    wideHoles wide offset holes [r] = [] ∧
      inlineWrites wide offset vars holes rtSymbols [r] =
        inlineWrites false offset vars holes rtSymbols [r] ∧
      PatchBlock.patchEntry checks wide offset vars holes jumps b r =
        (DelayedRelocation.tryApply checks b.code offset r vars holes jumps
          b.library.rtSymbols).map fun p => ({ b with code := p.1 } : PatchBlock MAX_REGS).fileDelayed p.2 := by
  cases wide with
  | false => exact ⟨rfl, rfl, rfl⟩
  | true =>
      unfold PatchBlock.patchEntry wideHoles inlineWrites inlineValue
      cases hinfo : r.patchInfo with
      | none => simp [hinfo]
      | some info =>
          cases info with
          | hole i => exact absurd ⟨rfl, i, hinfo⟩ hhole
          | stack | target | runtime => simp [hinfo, List.filterMap_cons]

/-- Filing a delayed entry changes the two lists of entries only. -/
theorem fileDelayed_effect {delayed : Option DelayedRelocation}
    (hdelayed : ∀ d, delayed = some d → isConstant d = false) (b : PatchBlock MAX_REGS) :
    (b.fileDelayed delayed).library = b.library ∧ (b.fileDelayed delayed).code = b.code ∧
      (b.fileDelayed delayed).constants = b.constants ∧
      (b.fileDelayed delayed).relocations.filter isConstant = b.relocations.filter isConstant := by
  cases delayed with
  | none => exact ⟨rfl, rfl, rfl, rfl⟩
  | some d =>
      have hd := hdelayed d rfl
      unfold PatchBlock.fileDelayed
      simp only
      split
      · exact ⟨rfl, rfl, rfl, rfl⟩
      · exact ⟨rfl, rfl, rfl, by simp [List.filter_append, hd]⟩

/-- **One entry** of the loop. -/
theorem patchEntry_effect {b b' : PatchBlock MAX_REGS}
    (h : PatchBlock.patchEntry checks wide offset vars holes jumps b r = some b') :
    EntryEffect wide offset vars holes [r] b b' := by
  by_cases hhole : wide = true ∧ ∃ i, r.patchInfo = some (.hole i)
  · obtain ⟨rfl, i, hinfo⟩ := hhole
    simp only [PatchBlock.patchEntry, hinfo, Option.bind_eq_bind, Option.pure_def] at h
    obtain ⟨value, hvalue, h⟩ := Option.bind_eq_some_iff.1 h
    obtain rfl := Option.some.inj h
    refine ⟨rfl, ?_, ?_, ?_⟩
    · simp [inlineWrites, inlineValue, hinfo, applyWrites]
    · simp [wideHoles, hinfo, hvalue]
    · simp [wideHoles, hinfo, hvalue, constantEntries, isConstant, DelayedRelocation.constant]
  · obtain ⟨hwide, hinline, hentry⟩ := @of_not_wideHole MAX_REGS checks wide offset vars holes
      b.library.rtSymbols jumps r hhole b
    rw [hentry] at h
    obtain ⟨⟨code, delayed⟩, hout, rfl⟩ := Option.map_eq_some_iff.1 h
    obtain ⟨hcode, hdelayed⟩ := tryApply_inline hout
    obtain ⟨hlib, hc, hconst, hrel⟩ := fileDelayed_effect hdelayed { b with code := code }
    refine ⟨hlib, ?_, ?_, ?_⟩
    · rw [hinline, hc]
      exact hcode
    · rw [hconst, hwide, List.map_nil, List.append_nil]
    · rw [hrel, hwide, constantEntries, List.append_nil]

end Entry

section Entries

variable {checks wide : Bool} {offset : Nat} {vars holes : List Usize} {jumps : List JumpTarget}

/-- **The loop of `copyAndPatch`**, up to the end marker. -/
theorem patchEntries_entryEffect {relocs : List Relocation} {b b' : PatchBlock MAX_REGS}
    (h : PatchBlock.patchEntries checks wide offset vars holes jumps relocs b = some b') :
    EntryEffect wide offset vars holes (validEntries relocs) b b' := by
  induction relocs generalizing b with
  | nil =>
      obtain rfl := Option.some.inj h
      exact EntryEffect.nil wide offset vars holes b
  | cons r relocs ih =>
      rw [PatchBlock.patchEntries] at h
      split at h
      · next hinv =>
        obtain rfl := Option.some.inj h
        have hnil : validEntries (r :: relocs) = [] := by simp [validEntries, hinv]
        rw [hnil]
        exact EntryEffect.nil wide offset vars holes b
      · next hinv =>
        obtain ⟨m, hm, h⟩ := Option.bind_eq_some_iff.1 h
        have hcons : validEntries (r :: relocs) = [r] ++ validEntries relocs := by
          simp [validEntries, hinv]
        rw [hcons]
        exact (patchEntry_effect hm).trans (ih h)

/-- **The field of an entry that is patched at once**: it still holds its bytes exactly when the later
entries do not change them. -/
theorem EntryEffect.read_field {pre post : List Relocation} {r : Relocation} {value : Usize}
    {b b' : PatchBlock MAX_REGS}
    (h : EntryEffect wide offset vars holes (pre ++ r :: post) b b')
    (hvalue : inlineValue wide vars holes b.library.rtSymbols r = some value) :
    readBytes b'.code (offset + r.offset.toNat) r.fieldLen = (inlineField offset r value).bytes ↔
      (inlineField offset r value).KeptBy
        (inlineWrites wide offset vars holes b.library.rtSymbols post) := by
  have hcode := h.code
  have hsplit : inlineWrites wide offset vars holes b.library.rtSymbols (pre ++ r :: post) =
      inlineWrites wide offset vars holes b.library.rtSymbols pre ++ inlineField offset r value ::
        inlineWrites wide offset vars holes b.library.rtSymbols post := by
    simp only [inlineWrites, List.filterMap_append, List.filterMap_cons, hvalue, Option.map_some]
  rw [hsplit] at hcode
  have hlen : (inlineField offset r value).bytes.length = r.fieldLen :=
    Relocation.fieldBytes_length _ _
  rw [← readBytes_iff_keptBy hcode, hlen]
  rfl

end Entries

/-- A copy of a stencil, by its entries. -/
theorem entryEffect_of_copyAndPatch {IN OUT HOLES JUMPS : Nat} {checks wide : Bool} {offset : Nat}
    {b b' : PatchBlock MAX_REGS} {stencils : StencilFamily IN OUT MAX_REGS HOLES JUMPS}
    {stencil : Stencil} {relocs : List Relocation} {inputs : Vector Location IN}
    {outputs : Vector Location OUT} {holes : Vector Usize HOLES} {jumps : Vector JumpTarget JUMPS}
    (h : b.copyAndPatch checks stencils stencil inputs outputs holes jumps wide offset = some b')
    (hrelocs : stencil.relocations stencils = some relocs) :
    ∃ code, stencil.code b.library.code = some code ∧
      EntryEffect wide offset (stackVars (inputs.toList ++ outputs.toList)) holes.toList
        (validEntries relocs) { b with code := b.code ++ code } b' := by
  simp only [PatchBlock.copyAndPatch, Option.bind_eq_bind] at h
  obtain ⟨code, hcode, h⟩ := Option.bind_eq_some_iff.1 h
  obtain ⟨relocs', hrelocs', h⟩ := Option.bind_eq_some_iff.1 h
  obtain rfl := Option.some.inj (hrelocs.symm.trans hrelocs')
  exact ⟨code, hcode, patchEntries_entryEffect h⟩

end Patchouly.Patch
