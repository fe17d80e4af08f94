import Patchouly.Patch.Bytes

/-!
# Failed calls and ended blocks

`ret` and `end_branch` set the `ended` mark before `emit_one` checks anything, and of the four calls
only `emit` looks at it.

* `failed_calls`: a failed call leaves the block as it was, unless it is a `ret` or an `end_branch` on
  a block that had not ended.
* `ended_calls`: on an ended block `emit` fails with `AlreadyEnded`, and no other call does.
-/

set_option autoImplicit false

namespace Patchouly.Patch

open Patchouly.Lib Patchouly.Core

variable {MAX_REGS : Nat} {checks : Bool}

/-! ## Failed calls -/

/-- The call would not set the mark anew. -/
def KeepsMark (b : PatchBlock MAX_REGS) (c : Call MAX_REGS) : Prop :=
  c.ends = true → b.ended = true

/-- A failed call leaves the mark alone. -/
def CarefulCall (checks : Bool) (b : PatchBlock MAX_REGS) (c : Call MAX_REGS) : Prop :=
  ∀ e b', b.call checks c = some (.error e, b') → KeepsMark b c

/-- The block as a transition system without the calls that fail. -/
def succeedingSystem (checks : Bool) (library : StencilLibrary MAX_REGS) :
    System (PatchBlock MAX_REGS) (Call MAX_REGS) where
  init b := b = .new library
  step b c b' := b.call checks c = some (.ok (), b')

namespace PatchBlock

variable {b b' : PatchBlock MAX_REGS} {c : Call MAX_REGS}

theorem marked_eq_self_iff : b.marked c = b ↔ KeepsMark b c := by
  constructor
  · intro h hends
    have hended : (b.marked c).ended = b.ended := congrArg ended h
    rw [marked, hends, Bool.or_true] at hended
    exact hended.symm
  · intro h
    have hended : (b.ended || c.ends) = b.ended := by
      cases hc : c.ends with
      | false => exact Bool.or_false _
      | true => rw [h hc, Bool.or_true]
    rw [marked, hended]

/-- A failed call does not change anything but the mark. -/
theorem eq_marked_of_error {e : PatchError} (h : b.call checks c = some (.error e, b')) :
    b' = b.marked c := by
  rcases call_marked h with ⟨e', -, hb⟩ | ⟨hok, -⟩
  · exact hb
  · cases hok

end PatchBlock

/-- The checks of `emit_one` turn the call down: a register the library does not have, or no stencil
for the locations. -/
def Call.refused (checks : Bool) (c : Call MAX_REGS) : Bool :=
  decide (anyInvalidRegister checks MAX_REGS
    (c.emission.inputs.toList ++ c.emission.outputs.toList) = some true) ||
  match c.emission.stencil.select c.emission.inputs c.emission.outputs c.emission.holes with
  | some none => true
  | _ => false

namespace PatchBlock

variable {b b' : PatchBlock MAX_REGS} {c : Call MAX_REGS}

/-- A call that `emit_one` turns down copies nothing. -/
theorem not_ok_of_refused (hr : c.refused checks = true) : b.call checks c ≠ some (.ok (), b') := by
  intro h
  rw [call_eq] at h
  split at h
  · cases h
  · simp only [emitOne, Option.bind_eq_bind, Option.pure_def] at h
    obtain ⟨bad, hbad, h⟩ := Option.bind_eq_some_iff.1 h
    split at h
    · cases h
    · next hok =>
      obtain ⟨selected, hsel, h⟩ := Option.bind_eq_some_iff.1 h
      cases selected with
      | none => cases h
      | some sel =>
          rw [Call.refused, hbad, hsel, Bool.or_false, decide_eq_true_eq, Option.some.injEq] at hr
          exact hok hr

/-- A call other than `emit` fails in the checks of `emit_one` only. -/
theorem refused_of_error {e : PatchError} (hc : c.isEmit = false)
    (h : b.call checks c = some (.error e, b')) : c.refused checks = true := by
  rw [call_eq, hc, Bool.false_and, if_neg Bool.false_ne_true] at h
  simp only [emitOne, Option.bind_eq_bind, Option.pure_def] at h
  obtain ⟨bad, hbad, h⟩ := Option.bind_eq_some_iff.1 h
  rw [Call.refused]
  split at h
  · next hok => rw [hbad, hok, decide_eq_true rfl, Bool.true_or]
  · obtain ⟨selected, hsel, h⟩ := Option.bind_eq_some_iff.1 h
    cases selected with
    | none => rw [hsel, Bool.or_true]
    | some sel =>
        obtain ⟨settled, -, h⟩ := Option.bind_eq_some_iff.1 h
        obtain ⟨last, -, h⟩ := Option.bind_eq_some_iff.1 h
        cases h

end PatchBlock

/-- **Failed calls.** On every reachable block a failed call leaves the block as it was exactly when it
does not set the mark anew; and in a run in which every failed call is of this kind, every state is one
that the successful calls alone reach. -/
theorem failed_calls (checks : Bool) (library : StencilLibrary MAX_REGS) :
    (∀ b, (blockSystem checks library).Reachable b → ∀ c e b',
      b.call checks c = some (.error e, b') → (b' = b ↔ KeepsMark b c)) ∧
    ∀ b, ((blockSystem checks library).guard (CarefulCall checks)).Reachable b →
      (succeedingSystem checks library).Reachable b := by
  constructor
  · intro b _ c e b' h
    rw [PatchBlock.eq_marked_of_error h]
    exact PatchBlock.marked_eq_self_iff
  · intro b h
    induction h with
    | init h => exact .init h
    | step c hs h ih =>
        obtain ⟨hcareful, res, hcall⟩ := h
        cases res with
        | ok u => exact .step c ih hcall
        | error e =>
            -- nothing has changed
            have hkeep := hcareful e _ hcall
            rw [PatchBlock.eq_marked_of_error hcall, PatchBlock.marked_eq_self_iff.2 hkeep]
            exact ih

/-- A return with a register the library does not have. -/
def badReturn : Call 1 := .ret (retFamily : StencilFamily 1 0 1 0 0) (.singleton (.register 0)) nil

/-- The same as a branch. -/
def badBranch : Call 1 :=
  .branch (retFamily : StencilFamily 1 0 1 0 0) (.singleton (.register 0)) nil nil nil

theorem failed_calls_branch : ∃ b', (PatchBlock.new sampleLibrary).call true badBranch =
    some (.error .invalidRegister, b') ∧ b' = PatchBlock.new sampleLibrary := by
  refine ⟨PatchBlock.new sampleLibrary, rfl, ?_⟩
  exact ((failed_calls true sampleLibrary).1 _ (.init rfl) badBranch .invalidRegister _ rfl).2
    fun hends => by cases hends

/-- The failed return ends the block. -/
theorem not_failed_calls : ¬ ∀ (b : PatchBlock 1), (blockSystem true sampleLibrary).Reachable b →
    ∀ c e b', b.call true c = some (.error e, b') → b' = b := by
  intro h
  have hcall : (PatchBlock.new sampleLibrary).call true badReturn =
      some (.error .invalidRegister, { PatchBlock.new sampleLibrary with ended := true }) := rfl
  have hsame := congrArg PatchBlock.ended (h _ (.init rfl) _ _ _ hcall)
  cases hsame

/-! ## Ended blocks -/

/-- The runs that go on from a block. -/
def blockSystemFrom (checks : Bool) (b₀ : PatchBlock MAX_REGS) :
    System (PatchBlock MAX_REGS) (Call MAX_REGS) where
  init b := b = b₀
  step b c b' := ∃ res, b.call checks c = some (res, b')

/-- The code ends with a stencil, up to the fields of its relocations. -/
def EndsWith (code stencil : List U8) (entries : List Relocation) : Prop :=
  ∃ start, code.length = start + stencil.length ∧ ∀ i v, stencil[i]? = some v →
    (∀ r ∈ entries, ¬ (r.offset.toNat ≤ i ∧ i < r.offset.toNat + r.fieldLen)) →
      code[start + i]? = some v

namespace PatchBlock

variable {b b' : PatchBlock MAX_REGS} {c : Call MAX_REGS}

/-- `emit_one` does not know the error `AlreadyEnded`. -/
theorem emitOne_ne_alreadyEnded {IN OUT HOLES JUMPS : Nat}
    {stencils : StencilFamily IN OUT MAX_REGS HOLES JUMPS} {inputs : Vector Location IN}
    {outputs : Vector Location OUT} {holes : Vector Usize HOLES} {jumps : Vector JumpTarget JUMPS} :
    b.emitOne checks stencils inputs outputs holes jumps ≠ some (.error .alreadyEnded, b') := by
  intro h
  simp only [emitOne, Option.bind_eq_bind, Option.pure_def] at h
  obtain ⟨bad, -, h⟩ := Option.bind_eq_some_iff.1 h
  split at h
  · simp at h
  · obtain ⟨selected, -, h⟩ := Option.bind_eq_some_iff.1 h
    cases selected with
    | none => simp at h
    | some sel =>
        obtain ⟨settled, -, h⟩ := Option.bind_eq_some_iff.1 h
        obtain ⟨last, -, h⟩ := Option.bind_eq_some_iff.1 h
        simp at h

/-- A call keeps the mark and may set it. -/
theorem ended_of_call {res : Except PatchError Unit} (h : b.call checks c = some (res, b')) :
    b'.ended = (b.ended || c.ends) := by
  rcases call_marked h with ⟨e, -, rfl⟩ | ⟨-, wide, settled, code, relocs, hcopy⟩
  · rfl
  · rw [hcopy.effect.frame.ended]
    exact (settleNext_cases hcopy.settle).2.1.ended

theorem call_ended (hended : b.ended = true) :
    b.call checks c = some (.error .alreadyEnded, b) ↔ c.isEmit = true := by
  rw [call_eq, hended, Bool.and_true]
  constructor
  · intro h
    split at h
    · next hemit => exact hemit
    · exact absurd h emitOne_ne_alreadyEnded
  · intro hemit
    rw [if_pos hemit]

/-- What a successful call copies stands at the end of the code. -/
theorem Copies.endsWith {wide : Bool} {settled : PatchBlock MAX_REGS} {code : List U8}
    {relocs : List Relocation} (h : Copies checks b b' c wide settled code relocs) :
    EndsWith b'.code code (validEntries relocs) :=
  ⟨settled.code.length, h.code_length, fun _ _ hi hfree => h.plain_byte hi hfree⟩

end PatchBlock

/-- **Ended blocks.** After a `ret` or `end_branch` that succeeded, whatever calls follow, a call fails
with `AlreadyEnded` and changes nothing exactly when it is an `emit`. As long as only `emit` is called,
the block stays the same, and its code ends with the stencil of that `ret` or `end_branch`. -/
theorem ended_calls {b b₁ : PatchBlock MAX_REGS} {c₀ : Call MAX_REGS} (hends : c₀.ends = true)
    (hok : b.call checks c₀ = some (.ok (), b₁)) :
    (∀ b₂, (blockSystemFrom checks b₁).Reachable b₂ → ∀ c,
      b₂.call checks c = some (.error .alreadyEnded, b₂) ↔ c.isEmit = true) ∧
    ∃ settled code relocs, b.copied checks c₀ = some (settled, code, relocs) ∧
      ∀ b₂, ((blockSystemFrom checks b₁).guard fun _ c => c.isEmit = true).Reachable b₂ →
        b₂ = b₁ ∧ EndsWith b₂.code code (validEntries relocs) := by
  have hended : b₁.ended = true := by rw [PatchBlock.ended_of_call hok, hends, Bool.or_true]
  constructor
  · intro b₂ hrun c
    apply PatchBlock.call_ended
    induction hrun with
    | init h =>
        obtain rfl := h
        exact hended
    | step c hs h ih =>
        obtain ⟨res, hcall⟩ := h
        rw [PatchBlock.ended_of_call hcall, ih, Bool.true_or]
  · rcases PatchBlock.call_marked hok with ⟨e, he, -⟩ | ⟨-, wide, settled, code, relocs, hcopy⟩
    · cases he
    · refine ⟨settled, code, relocs, hcopy.copied hok, ?_⟩
      intro b₂ hrun
      -- an emit on an ended block fails and leaves it alone
      have hsame : b₂ = b₁ := by
        induction hrun with
        | init h => exact h
        | step c hs h ih =>
            obtain ⟨hemit, res, hcall⟩ := h
            subst ih
            rw [(PatchBlock.call_ended hended).2 hemit] at hcall
            exact (Prod.mk.inj (Option.some.inj hcall)).2.symm
      rw [hsame]
      exact ⟨rfl, hcopy.endsWith⟩

/-- The return of the sample library. -/
def plainReturn : Call 1 := .ret (retFamily : StencilFamily 0 0 1 0 0) nil nil

/-- The block that consists of the return. -/
def returned : PatchBlock 1 := { PatchBlock.new sampleLibrary with code := [0xC3], ended := true }

theorem call_plainReturn :
    (PatchBlock.new sampleLibrary).call true plainReturn = some (.ok (), returned) := rfl

theorem ended_calls_return :
    (∀ b₂, (blockSystemFrom true returned).Reachable b₂ → ∀ c,
      b₂.call true c = some (.error .alreadyEnded, b₂) ↔ c.isEmit = true) ∧
    ∃ settled code relocs,
      (PatchBlock.new sampleLibrary).copied true plainReturn = some (settled, code, relocs) ∧
      ∀ b₂, ((blockSystemFrom true returned).guard fun _ c => c.isEmit = true).Reachable b₂ →
        b₂ = returned ∧ EndsWith b₂.code code (validEntries relocs) :=
  ended_calls rfl call_plainReturn

/-- A second return is copied behind the first one. -/
theorem not_ended_calls : ¬ ∀ (b b₁ b₂ : PatchBlock 1) (c₀ c : Call 1),
    (blockSystem true sampleLibrary).Reachable b → c₀.ends = true →
      b.call true c₀ = some (.ok (), b₁) → (blockSystemFrom true b₁).Reachable b₂ →
        b₂.call true c = some (.error .alreadyEnded, b₂) := by
  intro h
  have hagain : returned.call true plainReturn =
      some (.ok (), { returned with code := [0xC3, 0xC3] }) := rfl
  have hclosed := h _ _ _ _ plainReturn (.init rfl) rfl call_plainReturn (.init rfl)
  rw [hagain] at hclosed
  cases hclosed

end Patchouly.Patch
