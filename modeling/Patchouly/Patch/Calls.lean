import Patchouly.Lib.Runs
import Patchouly.Patch.Emission

/-!
# Runs of calls on a block

`Call` lists the public calls that add code to a `PatchBlock`, with the dimensions of their stencil
family packed in. Every call that does something is one `emitOne` (`call_cases`).

`blockSystem` is the block as a transition system, with calls that fail included. `TidyCall` says
that a call stays within its stencil: the relocation fields lie inside the stencil's code, and the
truncation cuts off no field of a delayed relocation. In a run of such calls all delayed fields lie
inside the code (`inCode_of_tidy`).
-/

set_option autoImplicit false

namespace Patchouly.Patch

open Patchouly.Lib Patchouly.Core

/-- The arguments of `emitOne`. -/
structure Emission (MAX_REGS : Nat) where
  {IN OUT HOLES JUMPS : Nat}
  stencil : StencilFamily IN OUT MAX_REGS HOLES JUMPS
  inputs : Vector Location IN
  outputs : Vector Location OUT
  holes : Vector Usize HOLES
  jumps : Vector JumpTarget JUMPS

inductive Call (MAX_REGS : Nat) where
  | emit {IN OUT HOLES : Nat} (stencil : StencilFamily IN OUT MAX_REGS HOLES 1)
      (inputs : Vector Location IN) (outputs : Vector Location OUT) (holes : Vector Usize HOLES)
  | ret {IN HOLES : Nat} (stencil : StencilFamily IN 0 MAX_REGS HOLES 0)
      (inputs : Vector Location IN) (holes : Vector Usize HOLES)
  | branch {IN OUT HOLES JUMPS : Nat} (stencil : StencilFamily IN OUT MAX_REGS HOLES JUMPS)
      (inputs : Vector Location IN) (outputs : Vector Location OUT) (holes : Vector Usize HOLES)
      (jumps : Vector JumpTarget JUMPS)
  | endBranch {IN OUT HOLES JUMPS : Nat} (stencil : StencilFamily IN OUT MAX_REGS HOLES JUMPS)
      (inputs : Vector Location IN) (outputs : Vector Location OUT) (holes : Vector Usize HOLES)
      (jumps : Vector JumpTarget JUMPS)

namespace Call

variable {MAX_REGS : Nat}

/-- What the call hands to `emitOne`. -/
def emission : Call MAX_REGS → Emission MAX_REGS
  | .emit stencil inputs outputs holes => ⟨stencil, inputs, outputs, holes, .singleton .next⟩
  | .ret stencil inputs holes => ⟨stencil, inputs, nil, holes, nil⟩
  | .branch stencil inputs outputs holes jumps => ⟨stencil, inputs, outputs, holes, jumps⟩
  | .endBranch stencil inputs outputs holes jumps => ⟨stencil, inputs, outputs, holes, jumps⟩

/-- Whether the call ends the block. -/
def ends : Call MAX_REGS → Bool
  | .ret .. | .endBranch .. => true
  | .emit .. | .branch .. => false

def isEmit : Call MAX_REGS → Bool
  | .emit .. => true
  | .ret .. | .branch .. | .endBranch .. => false

def vars (c : Call MAX_REGS) : List Location :=
  c.emission.inputs.toList ++ c.emission.outputs.toList

def selected (c : Call MAX_REGS) : Option (Option SelectedStencil) :=
  c.emission.stencil.select c.emission.inputs c.emission.outputs c.emission.holes

end Call

namespace PatchBlock

variable {MAX_REGS : Nat}

def call (checks : Bool) (self : PatchBlock MAX_REGS) :
    Call MAX_REGS → Option (Except PatchError Unit × PatchBlock MAX_REGS)
  | .emit stencil inputs outputs holes => self.emit checks stencil inputs outputs holes
  | .ret stencil inputs holes => self.ret checks stencil inputs holes
  | .branch stencil inputs outputs holes jumps =>
      self.branch checks stencil inputs outputs holes jumps
  | .endBranch stencil inputs outputs holes jumps =>
      self.endBranch checks stencil inputs outputs holes jumps

/-- The block as the call's `emitOne` sees it. -/
def marked (self : PatchBlock MAX_REGS) (c : Call MAX_REGS) : PatchBlock MAX_REGS :=
  { self with ended := self.ended || c.ends }

/-- What a successful call copies, if it succeeds: the stencil's code and its relocation entries. -/
structure Copies (checks : Bool) (b b' : PatchBlock MAX_REGS) (c : Call MAX_REGS)
    (wide : Bool) (settled : PatchBlock MAX_REGS) (code : List U8) (relocs : List Relocation) :
    Prop where
  settle : (b.marked c).settleNext checks = some settled
  source : ∃ sel, c.emission.stencil.select c.emission.inputs c.emission.outputs
    c.emission.holes = some (some sel) ∧ sel.wide = wide ∧
      sel.stencil.code b.library.code = some code ∧
      sel.stencil.relocations c.emission.stencil = some relocs
  patch : patchEntries checks wide settled.code.length
    (stackVars (c.emission.inputs.toList ++ c.emission.outputs.toList)) c.emission.holes.toList
    c.emission.jumps.toList relocs { settled with code := settled.code ++ code } = some b'

theorem copies_of_emitOne {checks : Bool} {b b' : PatchBlock MAX_REGS} {c : Call MAX_REGS}
    {res : Except PatchError Unit}
    (h : (b.marked c).emitOne checks c.emission.stencil c.emission.inputs c.emission.outputs
      c.emission.holes c.emission.jumps = some (res, b')) :
    (∃ e, res = .error e ∧ b' = b.marked c) ∨
      (res = .ok () ∧ ∃ wide settled code relocs, Copies checks b b' c wide settled code relocs) := by
  rcases emitOne_cases h with ⟨e, rfl, rfl⟩ | ⟨rfl, sel, settled, code, relocs, hemits⟩
  · exact Or.inl ⟨e, rfl, rfl⟩
  · exact Or.inr ⟨rfl, sel.wide, settled, code, relocs, hemits.settle,
      ⟨sel, hemits.select, rfl, hemits.fetchCode, hemits.fetchRelocs⟩, hemits.patch⟩

/-- **Every call** is one `emitOne` on the marked block; only `emit` looks at the mark first. -/
theorem call_eq (checks : Bool) (b : PatchBlock MAX_REGS) (c : Call MAX_REGS) :
    b.call checks c =
      if c.isEmit && b.ended then some (.error .alreadyEnded, b)
      else (b.marked c).emitOne checks c.emission.stencil c.emission.inputs c.emission.outputs
        c.emission.holes c.emission.jumps := by
  cases c with
  | emit stencil inputs outputs holes =>
      have hself : b.marked (.emit stencil inputs outputs holes) = b := by
        simp [marked, Call.ends]
      rw [hself]
      simp only [call, emit, Call.isEmit, Bool.true_and]
      rfl
  | branch stencil inputs outputs holes jumps =>
      have hself : b.marked (.branch stencil inputs outputs holes jumps) = b := by
        simp [marked, Call.ends]
      rw [hself]
      rfl
  | ret stencil inputs holes =>
      have hself : b.marked (.ret stencil inputs holes) = { b with ended := true } := by
        simp [marked, Call.ends]
      rw [hself]
      rfl
  | endBranch stencil inputs outputs holes jumps =>
      have hself : b.marked (.endBranch stencil inputs outputs holes jumps) =
          { b with ended := true } := by
        simp [marked, Call.ends]
      rw [hself]
      rfl

/-- A call fails and sets at most the `ended` mark, or copies one stencil. -/
theorem call_marked {checks : Bool} {b b' : PatchBlock MAX_REGS} {c : Call MAX_REGS}
    {res : Except PatchError Unit} (h : b.call checks c = some (res, b')) :
    (∃ e, res = .error e ∧ b' = b.marked c) ∨
      (res = .ok () ∧ ∃ wide settled code relocs, Copies checks b b' c wide settled code relocs) := by
  rw [call_eq] at h
  split at h
  · next hended =>
    obtain ⟨rfl, rfl⟩ := Prod.mk.inj (Option.some.inj h)
    rw [Bool.and_eq_true] at hended
    refine Or.inl ⟨_, rfl, ?_⟩
    rw [marked, hended.2, Bool.true_or]
    cases b
    cases hended.2
    rfl
  · exact copies_of_emitOne h

/-- **Every call** fails and changes at most the `ended` mark, or copies one stencil. -/
theorem call_cases {checks : Bool} {b b' : PatchBlock MAX_REGS} {c : Call MAX_REGS}
    {res : Except PatchError Unit} (h : b.call checks c = some (res, b')) :
    (∃ e, res = .error e ∧ ∃ ended, b' = { b with ended := ended }) ∨
      (res = .ok () ∧ ∃ wide settled code relocs, Copies checks b b' c wide settled code relocs) := by
  rcases call_marked h with ⟨e, he, hb⟩ | hok
  · exact Or.inl ⟨e, he, _, hb⟩
  · exact Or.inr hok

/-- What a successful call copies: the block before the copy, the stencil's code and its relocation
entries. -/
def copied (checks : Bool) (b : PatchBlock MAX_REGS) (c : Call MAX_REGS) :
    Option (PatchBlock MAX_REGS × List U8 × List Relocation) :=
  match b.call checks c with
  | some (.ok (), _) => do
      let settled ← (b.marked c).settleNext checks
      let selected ← c.emission.stencil.select c.emission.inputs c.emission.outputs c.emission.holes
      let sel ← selected
      let code ← sel.stencil.code b.library.code
      let relocs ← sel.stencil.relocations c.emission.stencil
      return (settled, code, relocs)
  | _ => none

theorem Copies.copied {checks wide : Bool} {b b' settled : PatchBlock MAX_REGS} {c : Call MAX_REGS}
    {code : List U8} {relocs : List Relocation} (h : b.call checks c = some (.ok (), b'))
    (hc : Copies checks b b' c wide settled code relocs) :
    b.copied checks c = some (settled, code, relocs) := by
  obtain ⟨sel, hsel, -, hcode, hrelocs⟩ := hc.source
  simp only [PatchBlock.copied, h, hc.settle, hsel, hcode, hrelocs, Option.bind_eq_bind,
    Option.bind_some, Option.pure_def]

/-! ## Effects of a copy -/

section Copies

variable {checks wide : Bool} {b b' settled : PatchBlock MAX_REGS} {c : Call MAX_REGS}
  {code : List U8} {relocs : List Relocation}

theorem Copies.settles (h : Copies checks b b' c wide settled code relocs) :
    Settles (b.marked c) settled :=
  (settleNext_cases h.settle).1

theorem Copies.effect (h : Copies checks b b' c wide settled code relocs) :
    CopyEffect { settled with code := settled.code ++ code } b' settled.code.length
      c.emission.holes.toList c.emission.jumps.toList (validEntries relocs) :=
  patchEntries_effect h.patch

theorem Copies.library (h : Copies checks b b' c wide settled code relocs) :
    b'.library = b.library := by
  rw [h.effect.frame.library]
  exact (settleNext_cases h.settle).2.1.library

/-- The code after a copy: the settled code and the stencil. -/
theorem Copies.code_length (h : Copies checks b b' c wide settled code relocs) :
    b'.code.length = settled.code.length + code.length := by
  obtain ⟨ws, hws, -⟩ := h.effect.writes
  rw [applyWrites_length hws, List.length_append]

end Copies

end PatchBlock

/-! ## Tidy runs -/

section Tidy

variable {MAX_REGS : Nat}

/-- All relocation fields lie inside the stencil's code. -/
def FieldsInside (code : List U8) (entries : List Relocation) : Prop :=
  ∀ r ∈ entries, r.offset.toNat + r.fieldLen ≤ code.length

instance (code : List U8) (entries : List Relocation) : Decidable (FieldsInside code entries) :=
  inferInstanceAs (Decidable (∀ r ∈ entries, _))

/-- A call that stays within its stencil. -/
def TidyCall (checks : Bool) (b : PatchBlock MAX_REGS) (c : Call MAX_REGS) : Prop :=
  ∀ p ∈ b.copied checks c, FieldsInside p.2.1 (validEntries p.2.2) ∧
    ∀ d ∈ b.relocations, d.fieldEnd ≤ b.code.length → d.fieldEnd ≤ p.1.code.length

instance (checks : Bool) (b : PatchBlock MAX_REGS) (c : Call MAX_REGS) :
    Decidable (TidyCall checks b c) :=
  inferInstanceAs (Decidable (∀ p ∈ b.copied checks c, _ ∧ _))

/-- The block as a transition system. A call may fail. -/
def blockSystem (checks : Bool) (library : StencilLibrary MAX_REGS) :
    System (PatchBlock MAX_REGS) (Call MAX_REGS) where
  init b := b = .new library
  step b c b' := ∃ res, b.call checks c = some (res, b')

/-- The blocks of the runs in which every call is tidy. -/
def TidyBlock (checks : Bool) (library : StencilLibrary MAX_REGS) (b : PatchBlock MAX_REGS) : Prop :=
  ((blockSystem checks library).guard (TidyCall checks)).Reachable b

/-- A block keeps its library. -/
theorem library_of_reachable {checks : Bool} {library : StencilLibrary MAX_REGS}
    {b : PatchBlock MAX_REGS} (h : (blockSystem checks library).Reachable b) :
    b.library = library := by
  induction h with
  | init h =>
      rw [h]
      rfl
  | step c hs hstep ih =>
      obtain ⟨res, hc⟩ := hstep
      rcases PatchBlock.call_cases hc with
        ⟨e, -, ended, rfl⟩ | ⟨-, wide, settled, code, relocs, hcopy⟩
      · exact ih
      · exact hcopy.library.trans ih

/-- The delayed fields lie inside the code. -/
def InCode (b : PatchBlock MAX_REGS) : Prop := ∀ d ∈ b.relocations, d.fieldEnd ≤ b.code.length

/-- A tidy call keeps the delayed fields inside the code. -/
theorem InCode.call {checks : Bool} {b b' : PatchBlock MAX_REGS} {c : Call MAX_REGS}
    {res : Except PatchError Unit} (hi : InCode b) (ht : TidyCall checks b c)
    (h : b.call checks c = some (res, b')) : InCode b' := by
  rcases PatchBlock.call_cases h with
    ⟨e, -, ended, rfl⟩ | ⟨rfl, wide, settled, code, relocs, hcopy⟩
  · exact hi
  · obtain ⟨hinside, hkeep⟩ : FieldsInside code (validEntries relocs) ∧
        ∀ d ∈ b.relocations, d.fieldEnd ≤ b.code.length → d.fieldEnd ≤ settled.code.length :=
      ht _ (hcopy.copied h)
    obtain ⟨-, -, hrel, -, -⟩ := PatchBlock.settleNext_cases hcopy.settle
    obtain ⟨new, hnew, hsub, hfiled⟩ := hcopy.effect.relocations
    intro d hd
    rw [hcopy.code_length]
    rw [hnew] at hd
    rcases List.mem_append.1 hd with hd | hd
    · -- an older entry: the cut left its field
      rw [show _ = b.relocations from hrel] at hd
      have hfield := hkeep d hd (hi d hd)
      omega
    · -- an entry of the new stencil
      have hoff := (hfiled d hd).1
      have hmem : d.relocation ∈ validEntries relocs :=
        hsub.subset (List.mem_map_of_mem hd)
      have hin := hinside _ hmem
      simp only [DelayedRelocation.fieldEnd, DelayedRelocation.location, hoff]
      omega

/-- **In a run of tidy calls the delayed fields lie inside the code.** -/
theorem inCode_of_tidy {checks : Bool} {library : StencilLibrary MAX_REGS}
    {b : PatchBlock MAX_REGS} (h : TidyBlock checks library b) : InCode b := by
  refine System.Reachable.invariant ?_ ?_ h
  · rintro _ rfl d hd
    cases hd
  · rintro b c b' - hi ⟨ht, res, hc⟩
    exact hi.call ht hc

end Tidy

/-! ## A small library -/

section Sample

/-- A relative 32-bit field at offset 1 with the addend -4 and the target `Target(0)`. -/
def jumpField : Relocation := ⟨0x00002FFC20810001⟩

/-- The same for `Runtime(0)`. -/
def callField : Relocation := ⟨0x00003FFC20810001⟩

/-- The same at offset 6 for `Target(0)`. -/
def nextField : Relocation := ⟨0x00002FFC20810006⟩

/-- The same at offset 2 for `Hole(0)`. -/
def holeField : Relocation := ⟨0x00000FFC20810002⟩

/-- A call with a jump behind it, a return and a long jump through the pool for one register, with
one runtime function. -/
def sampleLibrary : StencilLibrary 1 where
  code := [0xE8, 0, 0, 0, 0, 0xE9, 0, 0, 0, 0, 0xC3, 0xFF, 0x25, 0, 0, 0, 0]
  empty := [0xE9, 0, 0, 0, 0]
  longJump := ⟨[holeField, .new], [⟨11, 6, 0⟩, ⟨11, 6, 0⟩]⟩
  rtSymbols := [0x123456789A]

def callFamily {IN OUT JUMPS : Nat} : StencilFamily IN OUT 1 0 JUMPS :=
  ⟨[callField, nextField, .new], [⟨0, 10, 0⟩]⟩

def jumpFamily {IN OUT JUMPS : Nat} : StencilFamily IN OUT 1 0 JUMPS :=
  ⟨[jumpField, .new], [⟨5, 5, 0⟩]⟩

def retFamily {IN OUT JUMPS : Nat} : StencilFamily IN OUT 1 0 JUMPS :=
  ⟨[.new], [⟨10, 1, 0⟩]⟩

end Sample

end Patchouly.Patch
