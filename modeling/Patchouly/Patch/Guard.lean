import Patchouly.Build.Completeness
import Patchouly.Patch.Block

/-!
# The register check of an emission

`emit_one` compares the operands' bits, `i + 1` in `u16` for a register, with `MAX_REGS`, up to the
first operand that is too large. `select` then computes the slot with full-width arithmetic.

The two agree on every location but `Register(0xFFFF)`, whose bits overflow. The check does what it is
for exactly when it does not come to such an operand (`emitOne_guarded_iff`).
-/

set_option autoImplicit false

namespace Patchouly.Patch

open Patchouly.Lib Patchouly.Core Patchouly.Build Patchouly.Macros

/-! ## The check -/

/-- The first operand in no register of the family is not `Register(0xFFFF)`. -/
def ChecksEnd (maxRegs : Nat) (vars : List Location) : Prop :=
  ∀ v, vars.find? (fun v => decide (maxRegs ≤ v.digit)) = some v → v ≠ .register 0xFFFF

instance (maxRegs : Nat) (vars : List Location) : Decidable (ChecksEnd maxRegs vars) :=
  match h : vars.find? (fun v => decide (maxRegs ≤ v.digit)) with
  | none => isTrue fun v hv => by rw [h] at hv; cases hv
  | some v =>
      decidable_of_iff (v ≠ .register 0xFFFF)
        ⟨fun hne w hw => by rw [h] at hw; rwa [← Option.some.inj hw], fun hall => hall v h⟩

theorem intoBits_spec (checks : Bool) {v : Location} (h : v ≠ .register 0xFFFF) :
    ∃ bits, v.intoBits checks = some bits ∧ bits.toNat = v.digit := by
  cases v with
  | stack slot => exact ⟨0, rfl, rfl⟩
  | register i =>
      have hi : i.toNat ≠ 65535 := fun hi => h (congrArg _ (BitVec.eq_of_toNat_eq hi))
      have hlt := i.isLt
      have hone : (1 : U16).toNat = 1 := by decide
      refine ⟨i + 1, plainAdd_of_lt checks (by omega), ?_⟩
      rw [BitVec.toNat_add, hone, Nat.mod_eq_of_lt (by omega), Location.digit]

section Check

variable {maxRegs : Nat} {vars : List Location}

theorem anyInvalidRegister_eq (hmax : maxRegs < 2 ^ 16) (h : ChecksEnd maxRegs vars) (checks : Bool) :
    anyInvalidRegister checks maxRegs vars = some (vars.any fun v => decide (maxRegs ≤ v.digit)) := by
  induction vars with
  | nil => rfl
  | cons v vars ih =>
      have hv : v ≠ .register 0xFFFF := by
        rintro rfl
        -- its digit is `2 ^ 16`, so it would be the first one
        exact h (.register 0xFFFF) (List.find?_cons_of_pos (decide_eq_true (Nat.le_of_lt hmax))) rfl
      obtain ⟨bits, hbits, hdigit⟩ := intoBits_spec checks hv
      rw [anyInvalidRegister, hbits, Option.bind_some, List.any_cons, hdigit]
      by_cases hle : maxRegs ≤ v.digit
      · rw [if_pos hle, decide_eq_true hle, Bool.true_or]
      · rw [if_neg hle, decide_eq_false hle, Bool.false_or]
        apply ih
        intro w hw
        apply h w
        rw [List.find?_cons_of_neg (by simpa using hle)]
        exact hw

theorem anyInvalidRegister_overflow (h : ¬ ChecksEnd maxRegs vars) :
    anyInvalidRegister true maxRegs vars = none := by
  simp only [ChecksEnd, not_forall, not_not] at h
  obtain ⟨v, hfirst, rfl⟩ := h
  induction vars with
  | nil => cases hfirst
  | cons v vars ih =>
      rw [List.find?_cons] at hfirst
      rw [anyInvalidRegister]
      split at hfirst
      · obtain rfl := Option.some.inj hfirst
        rfl
      · next hlt =>
        -- an operand of the family is passed
        have hne : v ≠ .register 0xFFFF := by
          rintro rfl
          have hlast := List.find?_some hfirst
          rw [hlt] at hlast
          cases hlast
        obtain ⟨bits, hbits, hdigit⟩ := intoBits_spec true hne
        rw [hbits, Option.bind_some, hdigit, if_neg (of_decide_eq_false hlt)]
        exact ih hfirst

end Check

/-! ## The emission -/

namespace PatchBlock

variable {IN OUT MAX_REGS HOLES JUMPS : Nat} {checks : Bool} {self : PatchBlock MAX_REGS}
  {stencils : StencilFamily IN OUT MAX_REGS HOLES JUMPS} {inputs : Vector Location IN}
  {outputs : Vector Location OUT} {holes : Vector Usize HOLES} {jumps : Vector JumpTarget JUMPS}

/-- What the check is for: it does not overflow, it rejects exactly the operands in registers that do
not exist, and for the other operands `select` looks up slots of the family only. -/
structure Guarded (checks : Bool) (block : PatchBlock MAX_REGS)
    (stencils : StencilFamily IN OUT MAX_REGS HOLES JUMPS) (inputs : Vector Location IN)
    (outputs : Vector Location OUT) (holes : Vector Usize HOLES) (jumps : Vector JumpTarget JUMPS) :
    Prop where
  noOverflow : anyInvalidRegister true MAX_REGS (inputs.toList ++ outputs.toList) ≠ none
  rejects : (∃ block', block.emitOne checks stencils inputs outputs holes jumps =
      some (.error .invalidRegister, block')) ↔
    ∃ i, Location.register i ∈ inputs.toList ++ outputs.toList ∧ MAX_REGS - 1 ≤ i.toNat
  inside : (∀ i, Location.register i ∈ inputs.toList ++ outputs.toList → i.toNat < MAX_REGS - 1) →
    ∀ n ∈ stencils.lookups inputs outputs holes, n < stencils.stencils.length ∧
      (stencilsLen IN OUT MAX_REGS ≤ n → 0 < HOLES)

/-- `emit_one` returns `InvalidRegister` exactly when the check says so. -/
theorem emitOne_invalidRegister_iff :
    (∃ self', self.emitOne checks stencils inputs outputs holes jumps =
      some (.error .invalidRegister, self')) ↔
      anyInvalidRegister checks MAX_REGS (inputs.toList ++ outputs.toList) = some true := by
  constructor
  · rintro ⟨self', h⟩
    simp only [emitOne, Option.bind_eq_bind, Option.pure_def] at h
    obtain ⟨bad, hbad, h⟩ := Option.bind_eq_some_iff.1 h
    cases bad with
    | true => exact hbad
    | false =>
        rw [if_neg (by simp)] at h
        obtain ⟨selected, -, h⟩ := Option.bind_eq_some_iff.1 h
        cases selected with
        | none => simp at h
        | some sel =>
            obtain ⟨settled, -, h⟩ := Option.bind_eq_some_iff.1 h
            obtain ⟨last, -, h⟩ := Option.bind_eq_some_iff.1 h
            simp at h
  · intro h
    refine ⟨self, ?_⟩
    simp only [emitOne, h, Option.bind_eq_bind, Option.bind_some, if_true, Option.pure_def]

end PatchBlock

/-- An operand outside the family is a register. -/
theorem any_outside_iff {maxRegs : Nat} {vars : List Location} (h : vars ≠ [] → 0 < maxRegs) :
    (vars.any fun v => decide (maxRegs ≤ v.digit)) = true ↔
      ∃ i, Location.register i ∈ vars ∧ maxRegs - 1 ≤ i.toNat := by
  rw [List.any_eq_true]
  constructor
  · rintro ⟨v, hv, hle⟩
    have hpos := h (List.ne_nil_of_mem hv)
    replace hle := of_decide_eq_true hle
    cases v with
    | stack slot =>
        rw [Location.digit] at hle
        omega
    | register i =>
        rw [Location.digit] at hle
        exact ⟨i, hv, by omega⟩
  · rintro ⟨i, hi, hle⟩
    refine ⟨_, hi, decide_eq_true ?_⟩
    rw [Location.digit]
    omega

/-- **The check of `emit_one`** does what it is for exactly when the first operand it has to reject is
not `Register(0xFFFF)`, whatever the overflow behaviour of the two crates. -/
theorem emitOne_guarded_iff {buildChecks : Bool} {metadata : Metadata} {calls : List StencilCall}
    {b : StencilFamilyBuilder}
    (hadd : (StencilFamilyBuilder.new metadata).addStencils buildChecks calls = some (.ok (), b))
    (hcalls : calls ≠ []) (checks : Bool) (self : PatchBlock b.finalize.MAX_REGS)
    (inputs : Vector Location b.finalize.IN) (outputs : Vector Location b.finalize.OUT)
    (holes : Vector Usize b.finalize.HOLES) (jumps : Vector JumpTarget b.finalize.JUMPS) :
    PatchBlock.Guarded checks self b.finalize.typed inputs outputs holes jumps ↔
      ChecksEnd b.finalize.MAX_REGS (inputs.toList ++ outputs.toList) := by
  have F := StencilFamilyBuilder.filled_addStencils hadd
  have hmax : b.finalize.MAX_REGS < 2 ^ 16 := by
    have heq : b.finalize.MAX_REGS = metadata.maxRegs.toNat :=
      (StencilFamilyBuilder.dimensions_of_bare F.bare).2.2.1
    have hlt := metadata.maxRegs.isLt
    omega
  have hpos : inputs.toList ++ outputs.toList ≠ [] → 0 < b.finalize.MAX_REGS := by
    intro hne
    apply F.maxRegs_pos hcalls
    have hlen := List.length_pos_of_ne_nil hne
    rw [List.length_append, Vector.length_toList, Vector.length_toList] at hlen
    exact Nat.ne_of_gt hlen
  constructor
  · intro h
    by_contra hends
    exact h.noOverflow (anyInvalidRegister_overflow hends)
  · intro hends
    constructor
    case noOverflow =>
      rw [anyInvalidRegister_eq hmax hends]
      simp
    case rejects =>
      rw [PatchBlock.emitOne_invalidRegister_iff, anyInvalidRegister_eq hmax hends,
        Option.some_inj, any_outside_iff hpos]
    case inside =>
      intro hregs n hn
      have htable : InTable b.finalize.IN b.finalize.OUT b.finalize.MAX_REGS inputs.toList
          outputs.toList := by
        refine ⟨Vector.length_toList, Vector.length_toList, ?_⟩
        intro l hl
        have hlt := hpos (List.ne_nil_of_mem hl)
        cases l with
        | stack slot => exact hlt
        | register i =>
            have hi := hregs i hl
            rw [Location.digit]
            omega
      exact F.lookups_lt hcalls htable holes hn

/-- A register that the family does not have is refused. -/
theorem emitOne_guarded_register :
    PatchBlock.Guarded true (PatchBlock.new ⟨[], [], ⟨[], []⟩, []⟩) oneOutputFamily.typed #v[]
      #v[.register 1] #v[0] #v[] :=
  (emitOne_guarded_iff addStencils_oneOutputCalls (by decide) true _ #v[] #v[.register 1] #v[0]
    #v[]).2 (by decide)

/-- The last register passes the check where sums wrap, and its slot is far behind the table. -/
theorem not_emitOne_guarded : ¬ ∀ (buildChecks : Bool) (metadata : Metadata)
    (calls : List StencilCall) (b : StencilFamilyBuilder),
    (StencilFamilyBuilder.new metadata).addStencils buildChecks calls = some (.ok (), b) →
    calls ≠ [] →
      ∀ (checks : Bool) (self : PatchBlock b.finalize.MAX_REGS)
        (inputs : Vector Location b.finalize.IN) (outputs : Vector Location b.finalize.OUT)
        (holes : Vector Usize b.finalize.HOLES) (jumps : Vector JumpTarget b.finalize.JUMPS),
        PatchBlock.Guarded checks self b.finalize.typed inputs outputs holes jumps := by
  intro h
  have hguarded := h _ _ _ _ addStencils_oneOutputCalls (by decide) false
    (PatchBlock.new ⟨[], [], ⟨[], []⟩, []⟩) #v[] #v[.register 0xFFFF] #v[0] #v[]
  obtain ⟨self', hrejected⟩ := hguarded.rejects.2 ⟨0xFFFF, List.mem_singleton_self _, by decide⟩
  cases hrejected

end Patchouly.Patch
