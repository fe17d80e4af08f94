import Patchouly.Core.Selection

/-!
# Reading a stencil index back (`patchouly-core`, `stencils.rs`)

`index_to_io_lossy` runs over the operands from the last to the first and takes one digit off the
index for each, so it undoes `io_to_index` digit by digit (`processIndex_ioIndexAux`,
`processIndex_spec`). What is left over at the end is the width. Stack slot numbers are not part of
an index and come back as zero.
-/

set_option autoImplicit false

namespace Patchouly.Core

open Patchouly.Lib

namespace Location

/-- The location of one digit of a stencil index; the register is `reg as u16 - 1`. -/
def ofDigit (checks : Bool) (reg : Nat) : Option Location :=
  if reg = 0 then some (.stack 0)
  else (plainSub checks (BitVec.ofNat 16 reg) 1).map .register

/-- The location with its stack slot number replaced by zero. -/
def lossy : Location → Location
  | .stack _ => .stack 0
  | .register i => .register i

/-- A digit that fits `u16` is the digit of the location it stands for. -/
theorem ofDigit_spec (checks : Bool) {reg : Nat} (h : reg < 2 ^ 16) :
    ∃ l, ofDigit checks reg = some l ∧ l.digit = reg ∧ l.lossy = l := by
  rw [ofDigit]
  split
  · next h0 => exact ⟨.stack 0, rfl, h0.symm, rfl⟩
  · next h0 =>
    have hreg : (BitVec.ofNat 16 reg).toNat = reg := toNat_ofNat_of_lt h
    have hone : (1 : U16).toNat = 1 := by decide
    have hsub := plainSub_of_le checks (a := BitVec.ofNat 16 reg) (b := 1) (by omega)
    refine ⟨.register (BitVec.ofNat 16 reg - 1), by rw [hsub]; rfl, ?_, rfl⟩
    have hle : (1 : U16) ≤ BitVec.ofNat 16 reg := by
      rw [BitVec.le_def]
      omega
    rw [digit, BitVec.toNat_sub_of_le hle]
    omega

theorem lossy_eq_of_digit_eq {l l' : Location} (h : l.digit = l'.digit) : l.lossy = l'.lossy := by
  cases l with
  | stack slot =>
      cases l' with
      | stack slot' => rfl
      | register r' => simp [digit] at h
  | register r =>
      cases l' with
      | stack slot' => simp [digit] at h
      | register r' =>
          have hr : r = r' := BitVec.eq_of_toNat_eq (Nat.succ.inj h)
          rw [hr]

theorem ofDigit_digit (checks : Bool) {l : Location} (h : l.digit < 2 ^ 16) :
    ofDigit checks l.digit = some l.lossy := by
  obtain ⟨l', hl', hdigit, hlossy⟩ := ofDigit_spec checks h
  rw [hl', ← hlossy, lossy_eq_of_digit_eq hdigit]

end Location

/-! ## The loop -/

/-- `process_index`'s loop over the slots in reverse; `done` are the slots already written. A remainder
by zero panics. -/
def processIndexAux (checks : Bool) (maxRegs : Nat) :
    Nat → List Location → List Location → Option (Nat × List Location)
  | index, [], done => some (index, done)
  | index, _ :: slots, done =>
      if maxRegs = 0 then none
      else
        let reg := index % maxRegs
        let index := (index - reg) / maxRegs
        (Location.ofDigit checks reg).bind fun v =>
          processIndexAux checks maxRegs index slots (v :: done)

def processIndex (checks : Bool) (index maxRegs : Nat) (slots : List Location) :
    Option (Nat × List Location) :=
  processIndexAux checks maxRegs index slots.reverse []

/-- The width, and what is written to `inputs` and `outputs`. -/
def indexToIoLossy (checks : Bool) (index maxRegs : Nat) (inputs outputs : List Location) :
    Option (Bool × List Location × List Location) := do
  let (index, outputs) ← processIndex checks index maxRegs outputs
  let (index, inputs) ← processIndex checks index maxRegs inputs
  if index = 0 ∨ index = 1 then return (index = 1, inputs, outputs) else none

theorem ioIndexAux_append (maxRegs i : Nat) (vars vars' : List Location) :
    ioIndexAux maxRegs i (vars ++ vars') = ioIndexAux maxRegs (ioIndexAux maxRegs i vars) vars' := by
  induction vars generalizing i with
  | nil => rfl
  | cons var vars ih => exact ih _

section Loop

variable {checks : Bool} {maxRegs : Nat}

theorem processIndexAux_ioIndexAux (checks : Bool) (hfit : maxRegs ≤ 2 ^ 16) (i : Nat)
    {rvars slots : List Location} (done : List Location) (hlen : slots.length = rvars.length)
    (hdigits : ∀ l ∈ rvars, l.digit < maxRegs) :
    processIndexAux checks maxRegs (ioIndexAux maxRegs i rvars.reverse) slots done =
      some (i, rvars.reverse.map Location.lossy ++ done) := by
  induction rvars generalizing slots done with
  | nil =>
      obtain rfl := List.length_eq_zero_iff.1 hlen
      rfl
  | cons var rvars ih =>
      obtain ⟨slot, slots, rfl⟩ := List.exists_cons_of_length_eq_add_one hlen
      have hvar := hdigits var List.mem_cons_self
      have hpos : 0 < maxRegs := Nat.lt_of_le_of_lt (Nat.zero_le _) hvar
      rw [List.reverse_cons, ioIndexAux_append, processIndexAux, if_neg (by omega)]
      simp only [ioIndexAux]
      -- the lowest digit is the one of the last operand
      have hmod : (maxRegs * ioIndexAux maxRegs i rvars.reverse + var.digit) % maxRegs = var.digit := by
        rw [Nat.mul_add_mod, Nat.mod_eq_of_lt hvar]
      rw [hmod, Nat.add_sub_cancel, Nat.mul_div_cancel_left _ hpos,
        Location.ofDigit_digit checks (Nat.lt_of_lt_of_le hvar hfit), Option.bind_some,
        ih _ (Nat.succ.inj hlen) fun l hl => hdigits l (List.mem_cons_of_mem var hl)]
      simp

/-- The loop takes back the digits that `io_to_index` put in. -/
theorem processIndex_ioIndexAux (checks : Bool) (hfit : maxRegs ≤ 2 ^ 16) (i : Nat)
    {vars slots : List Location} (hlen : slots.length = vars.length)
    (hdigits : ∀ l ∈ vars, l.digit < maxRegs) :
    processIndex checks (ioIndexAux maxRegs i vars) maxRegs slots =
      some (i, vars.map Location.lossy) := by
  have hrev : slots.reverse.length = vars.reverse.length := by simpa using hlen
  have h := processIndexAux_ioIndexAux checks hfit i [] hrev (by simpa using hdigits)
  simpa [processIndex] using h

/-- What the loop returns: as many locations as slots, with digits below the base, and the rest of
the index, from which they give the index back. -/
structure Unpacked (maxRegs n index : Nat) (rest : Nat) (vars : List Location) : Prop where
  length : vars.length = n
  digits : ∀ l ∈ vars, l.digit < maxRegs
  lossy : ∀ l ∈ vars, l.lossy = l
  packed : ioIndexAux maxRegs rest vars = index

theorem processIndexAux_spec (checks : Bool) (hpos : 0 < maxRegs) (hfit : maxRegs ≤ 2 ^ 16)
    (index : Nat) (slots done : List Location) :
    ∃ rest vars, processIndexAux checks maxRegs index slots done = some (rest, vars ++ done) ∧
      Unpacked maxRegs slots.length index rest vars := by
  induction slots generalizing index done with
  | nil => exact ⟨index, [], rfl, rfl, by simp, by simp, rfl⟩
  | cons slot slots ih =>
      have hmod : index % maxRegs < maxRegs := Nat.mod_lt _ hpos
      obtain ⟨v, hv, hdigit, hlossy⟩ :=
        Location.ofDigit_spec checks (Nat.lt_of_lt_of_le hmod hfit)
      obtain ⟨rest, vars, hvars, h⟩ := ih ((index - index % maxRegs) / maxRegs) (v :: done)
      refine ⟨rest, vars ++ [v], ?_, ?_, ?_, ?_, ?_⟩
      · rw [processIndexAux, if_neg (by omega)]
        simp only [hv, Option.bind_some, hvars, List.append_assoc, List.singleton_append]
      · rw [List.length_append, h.length]
        rfl
      · intro l hl
        rcases List.mem_append.1 hl with hl | hl
        · exact h.digits l hl
        · rw [List.mem_singleton.1 hl, hdigit]
          exact hmod
      · intro l hl
        rcases List.mem_append.1 hl with hl | hl
        · exact h.lossy l hl
        · rw [List.mem_singleton.1 hl, hlossy]
      · rw [ioIndexAux_append, h.packed, ioIndexAux, ioIndexAux, hdigit,
          Nat.mul_div_cancel' (Nat.dvd_sub_mod index)]
        have hle := Nat.mod_le index maxRegs
        omega

theorem processIndex_spec (checks : Bool) (hpos : 0 < maxRegs) (hfit : maxRegs ≤ 2 ^ 16)
    (index : Nat) (slots : List Location) :
    ∃ rest vars, processIndex checks index maxRegs slots = some (rest, vars) ∧
      Unpacked maxRegs slots.length index rest vars := by
  have h := processIndexAux_spec checks hpos hfit index slots.reverse []
  simpa [processIndex] using h

end Loop

/-! ## Both directions -/

section Index

variable {maxRegs : Nat} {inputs outputs : List Location}

/-- The width is the leading digit. -/
theorem ioToIndex_eq (inputs outputs : List Location) (maxRegs : Nat) (wide : Bool) :
    ioToIndex inputs outputs maxRegs wide =
      ioIndexAux maxRegs (ioIndexAux maxRegs wide.toNat inputs) outputs := by
  rw [← ioIndexAux_append, ioToIndex, ioIndexAux_eq, ioIndexAux_eq]
  cases wide
  · simp
  · simp [stencilsLen, Nat.add_comm]

/-- The operands of a call to `io_to_index`: all registers have a digit below the base. -/
theorem inTable_of_registers (hpos : 0 < maxRegs)
    (h : ∀ r, Location.register r ∈ inputs ++ outputs → r.toNat < maxRegs - 1) :
    InTable inputs.length outputs.length maxRegs inputs outputs := by
  refine ⟨rfl, rfl, ?_⟩
  intro l hl
  cases l with
  | stack slot => exact hpos
  | register r =>
      have hr := h r hl
      rw [Location.digit]
      omega

theorem indexToIoLossy_ioToIndex (checks : Bool) (hfit : maxRegs ≤ 2 ^ 16)
    (h : InTable inputs.length outputs.length maxRegs inputs outputs) (wide : Bool)
    {ins outs : List Location} (hins : ins.length = inputs.length)
    (houts : outs.length = outputs.length) :
    indexToIoLossy checks (ioToIndex inputs outputs maxRegs wide) maxRegs ins outs =
      some (wide, inputs.map Location.lossy, outputs.map Location.lossy) := by
  have hout := processIndex_ioIndexAux checks hfit (ioIndexAux maxRegs wide.toNat inputs) houts
    fun l hl => h.digits l (List.mem_append_right _ hl)
  have hin := processIndex_ioIndexAux checks hfit wide.toNat hins
    fun l hl => h.digits l (List.mem_append_left _ hl)
  rw [indexToIoLossy, ioToIndex_eq, hout, Option.bind_eq_bind, Option.bind_some]
  simp only [hin, Option.bind_some]
  cases wide <;> rfl

theorem ioToIndex_lt (h : InTable inputs.length outputs.length maxRegs inputs outputs)
    (wide : Bool) :
    ioToIndex inputs outputs maxRegs wide < 2 * stencilsLen inputs.length outputs.length maxRegs ∧
      (ioToIndex inputs outputs maxRegs wide < stencilsLen inputs.length outputs.length maxRegs ↔
        wide = false) := by
  have hlt := ioToIndex_narrow_lt h
  have hwide := ioToIndex_wide h
  cases wide
  · exact ⟨by omega, iff_of_true hlt rfl⟩
  · exact ⟨by omega, iff_of_false (by omega) (by simp)⟩

theorem indexToIoLossy_spec (checks : Bool) (hpos : 0 < maxRegs) (hfit : maxRegs ≤ 2 ^ 16)
    {index : Nat} (ins outs : List Location)
    (hindex : index < 2 * stencilsLen ins.length outs.length maxRegs) :
    ∃ wide inputs outputs,
      indexToIoLossy checks index maxRegs ins outs = some (wide, inputs, outputs) ∧
        inputs.length = ins.length ∧ outputs.length = outs.length ∧
        ioToIndex inputs outputs maxRegs wide = index := by
  obtain ⟨rest, outputs, hout, ho⟩ := processIndex_spec checks hpos hfit index outs
  obtain ⟨width, inputs, hin, hi⟩ := processIndex_spec checks hpos hfit rest ins
  -- the rest of the index is its leading digit
  have hpacked : index = stencilsLen ins.length outs.length maxRegs * width +
      Nat.ofDigits maxRegs ((inputs ++ outputs).map Location.digit).reverse := by
    rw [← ho.packed, ← hi.packed, ← ioIndexAux_append, ioIndexAux_eq, List.length_append, hi.length,
      ho.length, stencilsLen]
  have hwidth : width = 0 ∨ width = 1 := by
    have hmul : stencilsLen ins.length outs.length maxRegs * width <
        stencilsLen ins.length outs.length maxRegs * 2 := by omega
    have := Nat.lt_of_mul_lt_mul_left hmul
    omega
  refine ⟨decide (width = 1), inputs, outputs, ?_, hi.length, ho.length, ?_⟩
  · rw [indexToIoLossy, hout, Option.bind_eq_bind, Option.bind_some]
    simp only [hin, Option.bind_some, if_pos hwidth]
    rfl
  · have htoNat : (decide (width = 1)).toNat = width := by
      rcases hwidth with rfl | rfl <;> rfl
    rw [ioToIndex_eq, htoNat, hi.packed, ho.packed]

end Index

/-- **A stencil index is a bijection** between the operand locations of a table, up to stack slot
numbers, with the width, and the numbers below twice the table's length. -/
theorem ioToIndex_bijective (checks : Bool) {maxRegs : Nat} (hpos : 1 ≤ maxRegs)
    (hfit : maxRegs ≤ 65536) :
    (∀ (inputs outputs : List Location) (wide : Bool),
      (∀ r, Location.register r ∈ inputs ++ outputs → r.toNat < maxRegs - 1) →
      ioToIndex inputs outputs maxRegs wide <
          2 * stencilsLen inputs.length outputs.length maxRegs ∧
        (ioToIndex inputs outputs maxRegs wide < stencilsLen inputs.length outputs.length maxRegs ↔
          wide = false) ∧
        ∀ ins outs : List Location, ins.length = inputs.length → outs.length = outputs.length →
          indexToIoLossy checks (ioToIndex inputs outputs maxRegs wide) maxRegs ins outs =
            some (wide, inputs.map Location.lossy, outputs.map Location.lossy)) ∧
      ∀ (index : Nat) (ins outs : List Location),
        index < 2 * stencilsLen ins.length outs.length maxRegs →
          ∃ wide inputs outputs,
            indexToIoLossy checks index maxRegs ins outs = some (wide, inputs, outputs) ∧
              inputs.length = ins.length ∧ outputs.length = outs.length ∧
              ioToIndex inputs outputs maxRegs wide = index := by
  constructor
  · intro inputs outputs wide hregisters
    have htable := inTable_of_registers hpos hregisters
    obtain ⟨hlt, hhalf⟩ := ioToIndex_lt htable wide
    refine ⟨hlt, hhalf, ?_⟩
    intro ins outs hins houts
    exact indexToIoLossy_ioToIndex checks hfit htable wide hins houts
  · intro index ins outs hindex
    exact indexToIoLossy_spec checks hpos hfit ins outs hindex

/-- One input and one output over two registers and the stack, in the wide half. -/
theorem ioToIndex_bijective_three :
    ioToIndex [.register 1] [.stack 7] 3 true = 15 ∧
      indexToIoLossy true 15 3 [.stack 5] [.stack 5] =
        some (true, [.register 1], [.stack 0]) ∧
      ∃ wide inputs outputs, indexToIoLossy true 17 3 [.stack 5] [.stack 5] =
        some (wide, inputs, outputs) ∧ ioToIndex inputs outputs 3 wide = 17 := by
  have hlaw := @ioToIndex_bijective true 3 (by decide) (by decide)
  have hindex : ioToIndex [.register 1] [.stack 7] 3 true = 15 := by decide
  refine ⟨hindex, ?_, ?_⟩
  · have hback := (hlaw.1 [.register 1] [.stack 7] true (by simp)).2.2 [.stack 5] [.stack 5] rfl rfl
    rw [hindex] at hback
    exact hback
  · obtain ⟨wide, inputs, outputs, h, -, -, hsame⟩ :=
      hlaw.2 17 [.stack 5] [.stack 5] (by decide)
    exact ⟨wide, inputs, outputs, h, hsame⟩

end Patchouly.Core
