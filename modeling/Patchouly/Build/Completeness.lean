import Patchouly.Build.Family

/-!
# Every stencil is selected

The macro emits a stencil for every vector of its iterator, and again a wide one when the function has
holes. A family built from these stencils in any order should be complete: selection never leaves the
table, fails only for two outputs in one register, and otherwise returns the stencil of exactly these
operands (`Complete`).

`add_stencil` compares one more than the largest hole id with the number of holes. Where sums wrap, an
entry for the hole `0xFFFF`, which no family has, passes. A family is complete for given operands and
holes exactly when the walk of `select` does not come to such an entry (`select_addStencils_iff`).
-/

set_option autoImplicit false

namespace Patchouly.Build

open Patchouly.Lib Patchouly.Core Patchouly.Macros

/-- The operands that the symbol of a vector names. -/
def argsOf (inputs : Nat) (v : List U16) : StencilArgs :=
  ⟨(v.take inputs).map Location.fromBits, (v.drop inputs).map Location.fromBits⟩

/-- The operands and widths of a shape's stencils. -/
def requests (metadata : Metadata) (vs : List (List U16)) : List (StencilArgs × Bool) :=
  vs.map (fun v => (argsOf metadata.inputs.toNat v, false)) ++
    if 0 < metadata.holes then vs.map fun v => (argsOf metadata.inputs.toNat v, true) else []

/-- No two outputs are the same register. -/
def DistinctRegisters (outputs : List Location) : Prop :=
  outputs.Pairwise fun a b => ∀ i, a = .register i → b ≠ .register i

/-- The call is for these locations, whatever the stack slots are, and this width. -/
structure StencilCall.For (call : StencilCall) (inputs outputs : List Location) (wide : Bool) :
    Prop where
  inputs : call.io.inputs.map Location.digit = inputs.map Location.digit
  outputs : call.io.outputs.map Location.digit = outputs.map Location.digit
  wide : call.wide = wide

/-- Two calls share a slot exactly if they are for the same locations and width. -/
theorem StencilCall.slot_eq_iff {ins outs maxRegs : Nat} {call : StencilCall}
    {inputs outputs : List Location}
    (htable : InTable ins outs maxRegs call.io.inputs call.io.outputs)
    (h : InTable ins outs maxRegs inputs outputs) (wide : Bool) :
    call.slot maxRegs = ioToIndex inputs outputs maxRegs wide ↔ call.For inputs outputs wide := by
  constructor
  · intro hslot
    obtain ⟨hdigits, hwide⟩ := ioToIndex_inj htable h hslot
    rw [List.map_append, List.map_append] at hdigits
    obtain ⟨hins, houts⟩ := List.append_inj hdigits (by
      rw [List.length_map, List.length_map, htable.inputsLen, h.inputsLen])
    exact ⟨hins, houts, hwide⟩
  · rintro ⟨hins, houts, rfl⟩
    exact ioToIndex_congr hins houts call.wide

/-- The stencil has the code and the relocations of the call. -/
structure StoredIn {IN OUT MAX_REGS HOLES JUMPS : Nat}
    (family : Core.StencilFamily IN OUT MAX_REGS HOLES JUMPS) (call : StencilCall)
    (stencil : Stencil) : Prop where
  codeIndex : stencil.codeIndex.toNat = call.code.start
  codeLen : stencil.codeLen.toNat = call.code.len
  relocations : (stencil.relocations family).map validEntries = some call.relocations

/-! ## Vectors and locations -/

/-- The vector of some locations. -/
def vectorOf (locations : List Location) : List U16 :=
  locations.map fun l => BitVec.ofNat 16 l.digit

theorem toNat_vectorOf {locations : List Location} {maxRegs : Nat} (hmax : maxRegs ≤ 2 ^ 16)
    (h : ∀ l ∈ locations, l.digit < maxRegs) :
    (vectorOf locations).map BitVec.toNat = locations.map Location.digit := by
  rw [vectorOf, List.map_map]
  apply List.map_congr_left
  intro l hl
  have hlt := h l hl
  simp only [Function.comp, BitVec.toNat_ofNat]
  exact Nat.mod_eq_of_lt (by omega)

theorem map_digit_fromBits (v : List U16) :
    (v.map Location.fromBits).map Location.digit = v.map BitVec.toNat := by
  simp [Function.comp_def]

theorem inTable_argsOf {inputs outputs : Nat} {registers : U16} {v : List U16}
    (h : RegPermutation.Located inputs outputs registers v) :
    InTable inputs outputs registers.toNat (argsOf inputs v).inputs (argsOf inputs v).outputs where
  inputsLen := by
    rw [argsOf, List.length_map, List.length_take, h.length]
    omega
  outputsLen := by
    rw [argsOf, List.length_map, List.length_drop, h.length]
    omega
  digits := by
    intro l hl
    rw [argsOf, ← List.map_append, List.take_append_drop] at hl
    obtain ⟨d, hd, rfl⟩ := List.mem_map.1 hl
    rw [Location.digit_fromBits]
    exact h.lt d hd

/-- Two locations with one digit are the stack, or one register. -/
theorem register_of_digit_eq {a b : Location} (h : a.digit = b.digit) (h0 : a.digit ≠ 0) :
    ∃ i, a = .register i ∧ b = .register i := by
  cases a with
  | stack slot => exact absurd rfl h0
  | register i =>
      cases b with
      | stack slot => cases h
      | register k =>
          simp only [Location.digit, Nat.add_right_cancel_iff] at h
          exact ⟨i, rfl, by rw [BitVec.eq_of_toNat_eq h]⟩

section Vectors

variable {ins outs : Nat} {registers : U16} {inputs outputs : List Location}

/-- The digit of an output in the vector. -/
theorem vectorOf_output (h : InTable ins outs registers.toNat inputs outputs) {i : Nat} {d : U16} :
    (vectorOf (inputs ++ outputs))[ins + i]? = some d ↔
      ∃ l, outputs[i]? = some l ∧ l.digit = d.toNat := by
  have hmax := registers.isLt
  rw [vectorOf, List.getElem?_map, List.getElem?_append_right (by rw [h.inputsLen]; omega),
    h.inputsLen, Nat.add_sub_cancel_left, Option.map_eq_some_iff]
  constructor
  · rintro ⟨l, hl, rfl⟩
    have hlt := h.digits l (List.mem_append_right _ (List.mem_of_getElem? hl))
    exact ⟨l, hl, by rw [toNat_ofNat_of_lt (by omega)]⟩
  · rintro ⟨l, hl, hd⟩
    exact ⟨l, hl, by rw [hd, BitVec.ofNat_toNat, BitVec.setWidth_eq]⟩

/-- The vectors of the iterator are those without a shared output register. -/
theorem located_vectorOf_iff (h : InTable ins outs registers.toNat inputs outputs) :
    RegPermutation.Located ins outs registers (vectorOf (inputs ++ outputs)) ↔
      DistinctRegisters outputs := by
  have hmax := registers.isLt
  constructor
  · intro hlocated
    apply List.pairwise_iff_getElem.2
    intro i j hi hj hij r hri hrj
    have hlt := h.digits _ (List.mem_append_right _ (List.getElem_mem hi))
    rw [hri, Location.digit] at hlt
    have hdigit : (BitVec.ofNat 16 (r.toNat + 1)).toNat = r.toNat + 1 := by
      rw [toNat_ofNat_of_lt (by omega)]
    -- two outputs in one register would be two equal digits, which only the stack allows
    have hzero := hlocated.distinct (ins + i) (ins + j) (BitVec.ofNat 16 (r.toNat + 1))
      (Nat.le_add_right _ _) (by omega)
      ((vectorOf_output h).2 ⟨.register r, by rw [List.getElem?_eq_getElem hi, hri], hdigit.symm⟩)
      ((vectorOf_output h).2 ⟨.register r, by rw [List.getElem?_eq_getElem hj, hrj], hdigit.symm⟩)
    rw [hzero] at hdigit
    cases hdigit
  · intro hdist
    constructor
    case length => simp [vectorOf, h.inputsLen, h.outputsLen]
    case lt =>
      intro d hd
      obtain ⟨l, hl, rfl⟩ := List.mem_map.1 hd
      have hlt := h.digits l hl
      rw [BitVec.lt_def, toNat_ofNat_of_lt (by omega)]
      exact hlt
    case distinct =>
      intro i j d hi hij hvi hvj
      obtain ⟨i, rfl⟩ := Nat.exists_eq_add_of_le hi
      obtain ⟨j, rfl⟩ := Nat.exists_eq_add_of_le (Nat.le_trans hi (Nat.le_of_lt hij))
      obtain ⟨a, ha, hda⟩ := (vectorOf_output h).1 hvi
      obtain ⟨b, hb, hdb⟩ := (vectorOf_output h).1 hvj
      -- equal digits other than 0 name one register, so the locations would clash
      by_contra hd
      have hne : a.digit ≠ 0 := by
        rw [hda]
        exact fun h0 => hd (BitVec.eq_of_toNat_eq h0)
      obtain ⟨r, rfl, rfl⟩ := register_of_digit_eq (hda.trans hdb.symm) hne
      obtain ⟨hi', hai⟩ := List.getElem?_eq_some_iff.1 ha
      obtain ⟨hj', hbj⟩ := List.getElem?_eq_some_iff.1 hb
      exact List.pairwise_iff_getElem.1 hdist i j hi' hj' (by omega) r hai hbj

end Vectors

/-! ## Selection -/

namespace StencilFamilyBuilder

/-- The call whose list is walked for a slot: the last one of the slot, or the first of all for an empty
slot. -/
def walkedCall (maxRegs : Nat) (calls : List StencilCall) (i : Nat) : Option StencilCall :=
  (lastCall maxRegs calls i).or calls.head?

variable {checks : Bool} {metadata : Metadata} {calls : List StencilCall} {b : StencilFamilyBuilder}

theorem mem_of_walkedCall {maxRegs i : Nat} {call : StencilCall}
    (h : call ∈ walkedCall maxRegs calls i) : call ∈ calls := by
  rw [Option.mem_def, walkedCall] at h
  cases hlast : lastCall maxRegs calls i with
  | none =>
      rw [hlast] at h
      exact List.mem_of_head? h
  | some last =>
      rw [hlast] at h
      obtain rfl := Option.some.inj h
      exact (lastCall_eq_some hlast).1

/-- Whatever stands in a slot, some call's list is walked. -/
theorem Filled.walk (F : Filled checks metadata calls b) (hcalls : calls ≠ []) {i : Nat}
    {stencil : Stencil} (h : b.family.stencils[i]? = some stencil) :
    ∃ call ∈ walkedCall b.family.MAX_REGS calls i, ∃ relocs,
      stencil.relocations b.family.typed = some relocs ∧
        call.relocations ++ [Relocation.new] <+: relocs := by
  have hstands : ∃ call ∈ walkedCall b.family.MAX_REGS calls i,
      StandsAt b.family.relocationData stencil.relocationIndex.toNat
        (call.relocations ++ [Relocation.new]) := by
    have hslot := F.slots i stencil h
    rw [walkedCall]
    cases hlast : lastCall b.family.MAX_REGS calls i with
    | some call =>
        rw [hlast] at hslot
        exact ⟨call, rfl, hslot.relocations⟩
    | none =>
        rw [hlast] at hslot
        obtain rfl := hslot
        rcases F.first with ⟨hnil, -⟩ | hfirst
        · exact absurd hnil hcalls
        · exact hfirst
  obtain ⟨call, hcall, hstands⟩ := hstands
  exact ⟨call, hcall, _, if_pos (Nat.le_of_lt hstands.lt_length), hstands⟩

/-- The table has a second half exactly for a family with holes. -/
theorem Filled.length (F : Filled checks metadata calls b) :
    b.family.stencils.length = stencilsLen b.family.IN b.family.OUT b.family.MAX_REGS *
      if 0 < b.family.HOLES then 2 else 1 := by
  obtain ⟨hins, houts, hmax, hholes⟩ := dimensions_of_bare F.bare
  rw [F.len, hins, houts, hmax, hholes, new, List.length_replicate]
  rfl

/-- The narrow slot of operands in the table exists. -/
theorem Filled.narrow_lt (F : Filled checks metadata calls b) {inputs outputs : List Location}
    (htable : InTable b.family.IN b.family.OUT b.family.MAX_REGS inputs outputs) :
    ioToIndex inputs outputs b.family.MAX_REGS false < b.family.stencils.length := by
  rw [F.length]
  apply Nat.lt_of_lt_of_le (ioToIndex_narrow_lt htable)
  exact Nat.le_mul_of_pos_right _ (by split <;> omega)

/-- The walked list of some operands comes to no hole that does not exist. -/
def WalkEnds (maxRegs : Nat) (calls : List StencilCall) (inputs outputs : List Location)
    (holes : List Usize) : Prop :=
  ∀ call ∈ walkedCall maxRegs calls (ioToIndex inputs outputs maxRegs false),
    HolesExist holes call.relocations

/-- **Selection ends** in the narrow slot of the operands or, if there are holes, in the wide one. -/
theorem Filled.select_eq (F : Filled checks metadata calls b) (hcalls : calls ≠ [])
    (hvalid : ∀ call ∈ calls, ∀ r ∈ call.relocations, r.isInvalid = false)
    {inputs : Vector Location b.family.IN}
    {outputs : Vector Location b.family.OUT}
    (htable : InTable b.family.IN b.family.OUT b.family.MAX_REGS inputs.toList outputs.toList)
    {holes : Vector Usize b.family.HOLES}
    (hends : WalkEnds b.family.MAX_REGS calls inputs.toList outputs.toList holes.toList) :
    ∃ wide stencil, b.family.typed.select inputs outputs holes =
        some (SelectedStencil.new wide stencil) ∧
      SlotHolds b.family.relocationData (lastCall b.family.MAX_REGS calls
        (ioToIndex inputs.toList outputs.toList b.family.MAX_REGS wide)) stencil ∧
      (wide = true → 0 < b.family.HOLES) := by
  have hnarrow := ioToIndex_narrow_lt htable
  have hlen := F.length
  obtain ⟨stencil, hstencil⟩ : ∃ s, b.family.stencils[ioToIndex inputs.toList outputs.toList
      b.family.MAX_REGS false]? = some s := ⟨_, List.getElem?_eq_getElem (F.narrow_lt htable)⟩
  obtain ⟨call, hcall, relocs, hrelocs, hprefix⟩ := F.walk hcalls hstencil
  obtain ⟨fits, hfits⟩ := Option.isSome_iff_exists.1
    ((isSome_narrowFits_iff hprefix (hvalid call (mem_of_walkedCall hcall))).2 (hends call hcall))
  simp only [Core.StencilFamily.select, Option.bind_eq_bind, Option.pure_def]
  -- a value that does not fit sends the selection to the wide half of the table
  cases fits with
  | true =>
      refine ⟨false, stencil, ?_, F.slots _ _ hstencil, by simp⟩
      simp only [StencilFamilyBuild.typed] at hrelocs ⊢
      simp only [hstencil, hrelocs, hfits, Option.bind_some, if_true]
  | false =>
      have hpos := holes_pos_of_narrowFits hprefix hfits
      rw [Vector.length_toList] at hpos
      rw [if_pos hpos] at hlen
      have hwide := ioToIndex_wide htable
      obtain ⟨wideStencil, hwideStencil⟩ : ∃ s, b.family.stencils[ioToIndex inputs.toList
          outputs.toList b.family.MAX_REGS false +
            stencilsLen b.family.IN b.family.OUT b.family.MAX_REGS]? = some s :=
        ⟨_, List.getElem?_eq_getElem (by omega)⟩
      refine ⟨true, wideStencil, ?_, F.slots _ _ (hwide ▸ hwideStencil), fun _ => hpos⟩
      simp only [StencilFamilyBuild.typed] at hrelocs ⊢
      simp only [hstencil, hrelocs, hfits, hwideStencil, Option.bind_some, Bool.false_eq_true,
        if_false]

/-- The family has locations for its operands. -/
theorem Filled.maxRegs_pos (F : Filled checks metadata calls b) (hcalls : calls ≠ [])
    (hops : b.family.IN + b.family.OUT ≠ 0) : 0 < b.family.MAX_REGS := by
  obtain ⟨call, hcall⟩ := List.exists_mem_of_ne_nil calls hcalls
  exact StencilFamilyBuilder.maxRegs_pos F.bare F.len (F.inside call hcall) hops

/-- Every slot that selection looks up exists, and the wide half only if there are holes. -/
theorem Filled.lookups_lt (F : Filled checks metadata calls b) (hcalls : calls ≠ [])
    {inputs : Vector Location b.family.IN} {outputs : Vector Location b.family.OUT}
    (htable : InTable b.family.IN b.family.OUT b.family.MAX_REGS inputs.toList outputs.toList)
    (holes : Vector Usize b.family.HOLES) {n : Nat}
    (hn : n ∈ b.family.typed.lookups inputs outputs holes) :
    n < b.family.stencils.length ∧
      (stencilsLen b.family.IN b.family.OUT b.family.MAX_REGS ≤ n → 0 < b.family.HOLES) := by
  have hnarrow := ioToIndex_narrow_lt htable
  have hlen := F.length
  rw [StencilFamily.lookups] at hn
  split at hn
  · next hwide =>
    obtain ⟨stencil, hstencil, hwalk⟩ := Option.bind_eq_some_iff.1 hwide
    obtain ⟨call, -, relocs, hrelocs, hprefix⟩ := F.walk hcalls hstencil
    rw [hrelocs, Option.bind_some] at hwalk
    have hpos := holes_pos_of_narrowFits hprefix hwalk
    rw [Vector.length_toList] at hpos
    rw [if_pos hpos] at hlen
    refine ⟨?_, fun _ => hpos⟩
    rcases List.mem_cons.1 hn with rfl | hn
    · omega
    · rw [List.mem_singleton.1 hn]
      omega
  · rw [List.mem_singleton.1 hn]
    exact ⟨F.narrow_lt htable, fun hle => by omega⟩

end StencilFamilyBuilder

theorem mem_requests {metadata : Metadata} {vs : List (List U16)} {io : StencilArgs} {wide : Bool} :
    (io, wide) ∈ requests metadata vs ↔
      (wide = true → 0 < metadata.holes) ∧ ∃ v ∈ vs, argsOf metadata.inputs.toNat v = io := by
  rw [requests, List.mem_append]
  by_cases hholes : 0 < metadata.holes
  · rw [if_pos hholes]
    cases wide with
    | false => simp
    | true => simpa using fun _ _ _ => hholes
  · -- without holes there are only narrow stencils
    rw [if_neg hholes]
    cases wide with
    | false => simp
    | true => simpa using fun h => absurd h hholes

section Requests

variable {ins outs : Nat} {registers : U16} {inputs outputs : List Location}

/-- The operands of a vector are given locations exactly for the vector of these. -/
theorem digits_argsOf_iff (h : InTable ins outs registers.toNat inputs outputs) {v : List U16}
    (hlen : v.length = ins + outs) :
    ((argsOf ins v).inputs.map Location.digit = inputs.map Location.digit ∧
      (argsOf ins v).outputs.map Location.digit = outputs.map Location.digit) ↔
      v = vectorOf (inputs ++ outputs) := by
  have hvector := toNat_vectorOf (Nat.le_of_lt registers.isLt) h.digits
  simp only [argsOf, map_digit_fromBits]
  constructor
  · rintro ⟨hins, houts⟩
    apply List.map_injective_iff.2 fun _ _ => BitVec.eq_of_toNat_eq
    rw [hvector, List.map_append, ← hins, ← houts, ← List.map_append, List.take_append_drop]
  · rintro rfl
    rw [List.map_take, List.map_drop, hvector, List.map_append]
    have hlen : (inputs.map Location.digit).length = ins := by rw [List.length_map, h.inputsLen]
    exact ⟨List.take_left' hlen, List.drop_left' hlen⟩

end Requests

/-- A stored stencil is read back from the finished family. -/
theorem StoredIn.of_stores {family : StencilFamilyBuild} {call : StencilCall} {stencil : Stencil}
    (h : Stores family.relocationData call stencil)
    (hvalid : ∀ r ∈ call.relocations, r.isInvalid = false) :
    StoredIn family.typed call stencil where
  codeIndex := h.codeIndex
  codeLen := h.codeLen
  relocations := by
    have hrelocs : stencil.relocations family.typed =
        some (family.relocationData.drop stencil.relocationIndex.toNat) :=
      if_pos (Nat.le_of_lt h.relocations.lt_length)
    rw [hrelocs, Option.map_some, validEntries_eq h.relocations hvalid]

/-- The calls fill the table of the iterator's vectors. -/
structure Requested (metadata : Metadata) (registers : NonZeroU16) (calls : List StencilCall) :
    Prop where
  maxRegs : metadata.maxRegs = registers.val
  calls_iff : ∀ io wide, (∃ call ∈ calls, call.io = io ∧ call.wide = wide) ↔
    (wide = true → 0 < metadata.holes) ∧ ∃ v, RegPermutation.Located metadata.inputs.toNat
      metadata.outputs.toNat registers.val v ∧ argsOf metadata.inputs.toNat v = io

namespace Requested

variable {metadata : Metadata} {registers : NonZeroU16} {calls : List StencilCall}
  {inputs outputs : List Location}

theorem of_perm {fuel : Nat} {vs : List (List U16)} (hregs : metadata.maxRegs = registers.val)
    (hvs : (RegPermutation.new metadata.inputs metadata.outputs registers).bind
      (RegPermutation.collect fuel) = some vs)
    (hcalls : (calls.map fun call => (call.io, call.wide)).Perm (requests metadata vs)) :
    Requested metadata registers calls := by
  refine ⟨hregs, ?_⟩
  intro io wide
  have hmem := @mem_requests metadata vs io wide
  rw [← hcalls.mem_iff, RegPermutation.eq_locations hvs] at hmem
  simpa [RegPermutation.mem_locations] using hmem

theorem registers_pos (registers : NonZeroU16) : 0 < registers.val.toNat :=
  Nat.pos_of_ne_zero fun h => registers.property (BitVec.eq_of_toNat_eq h)

theorem vector (R : Requested metadata registers calls) {call : StencilCall} (hcall : call ∈ calls) :
    ∃ v, RegPermutation.Located metadata.inputs.toNat metadata.outputs.toNat registers.val v ∧
      argsOf metadata.inputs.toNat v = call.io :=
  ((R.calls_iff call.io call.wide).1 ⟨call, hcall, rfl, rfl⟩).2

theorem ne_nil (R : Requested metadata registers calls) : calls ≠ [] := by
  obtain ⟨v, hv⟩ := List.exists_mem_of_ne_nil _
    (RegPermutation.locations_ne_nil metadata.inputs metadata.outputs registers)
  obtain ⟨call, hcall, -⟩ := (R.calls_iff (argsOf metadata.inputs.toNat v) false).2
    ⟨by simp, v, RegPermutation.mem_locations.1 hv, rfl⟩
  exact List.ne_nil_of_mem hcall

variable (h : InTable metadata.inputs.toNat metadata.outputs.toNat registers.val.toNat inputs outputs)

include h

/-- A call fills the slot of given operands exactly if it is for them. -/
theorem slot_eq_iff (R : Requested metadata registers calls) {call : StencilCall}
    (hcall : call ∈ calls) (wide : Bool) :
    call.slot registers.val.toNat = ioToIndex inputs outputs registers.val.toNat wide ↔
      call.For inputs outputs wide := by
  obtain ⟨v, hv, hio⟩ := R.vector hcall
  have htable := inTable_argsOf hv
  rw [hio] at htable
  exact StencilCall.slot_eq_iff htable h wide

/-- There is a call for given operands exactly if no register is used for two outputs. -/
theorem exists_for_iff (R : Requested metadata registers calls) {wide : Bool}
    (hwide : wide = true → 0 < metadata.holes) :
    (∃ call ∈ calls, call.For inputs outputs wide) ↔ DistinctRegisters outputs := by
  rw [← located_vectorOf_iff h]
  constructor
  · rintro ⟨call, hcall, hfor⟩
    obtain ⟨v, hv, hio⟩ := R.vector hcall
    have hdigits := (digits_argsOf_iff h hv.length).1
    rw [hio] at hdigits
    obtain rfl := hdigits ⟨hfor.inputs, hfor.outputs⟩
    exact hv
  · intro hlocated
    obtain ⟨call, hcall, hio, rfl⟩ := (R.calls_iff _ wide).2 ⟨hwide, _, hlocated, rfl⟩
    obtain ⟨hins, houts⟩ := (digits_argsOf_iff h hlocated.length).2 rfl
    rw [← hio] at hins houts
    exact ⟨call, hcall, hins, houts, rfl⟩

end Requested

/-- Locations in registers that exist are in the table. -/
theorem inTable_of_lt {ins outs : Nat} {registers : NonZeroU16} {inputs outputs : List Location}
    (hins : inputs.length = ins) (houts : outputs.length = outs)
    (h : ∀ i, Location.register i ∈ inputs ++ outputs → i < registers.val - 1) :
    InTable ins outs registers.val.toNat inputs outputs := by
  have hpos := Requested.registers_pos registers
  refine ⟨hins, houts, ?_⟩
  intro l hl
  cases l with
  | stack slot => exact hpos
  | register i =>
      have hlt := h i hl
      have hone : (1 : U16).toNat = 1 := by decide
      have hle : (1 : U16) ≤ registers.val := by
        rw [BitVec.le_def, hone]
        exact hpos
      rw [BitVec.lt_def, BitVec.toNat_sub_of_le hle, hone] at hlt
      rw [Location.digit]
      omega

/-- **Selection in a complete family** for some operands and holes: it stays inside the family, it finds
a stencil exactly when no two outputs are the same register, and then the one of these operands at the
width it reports. -/
def Complete (family : StencilFamilyBuild) (calls : List StencilCall)
    (inputs : Vector Location family.IN) (outputs : Vector Location family.OUT)
    (holes : Vector Usize family.HOLES) : Prop :=
  ∃ found, family.typed.select inputs outputs holes = some found ∧
    (found.isSome = true ↔ DistinctRegisters outputs.toList) ∧
    ∀ sel, found = some sel → ∃ call ∈ calls,
      call.For inputs.toList outputs.toList sel.wide ∧ StoredIn family.typed call sel.stencil

/-- In front of an entry for the hole `0xFFFF` there is one for a hole whose value it does not support. -/
def LastHoleUnread (holes : List Usize) (relocs : List Relocation) : Prop :=
  ∀ before r after, relocs = before ++ r :: after → r.patchInfo = some (.hole 0xFFFF) →
    ∃ r' ∈ before, GivesUp holes r'

/-- Where the count of the holes was compared, the hole `0xFFFF` is the only one that can be missing. -/
theorem holesExist_iff {checks : Bool} {holes : List Usize} {relocs : List Relocation}
    (h : HolesCounted checks holes.length relocs) (hlen : holes.length < 2 ^ 16) :
    HolesExist holes relocs ↔ LastHoleUnread holes relocs := by
  constructor
  · intro hexist before r after hsplit hi
    exact hexist before r after 0xFFFF hsplit hi (Nat.le_of_lt_succ hlen)
  · intro hunread before r after i hsplit hi hle
    have hmem : r ∈ relocs := by
      rw [hsplit]
      exact List.mem_append_right _ List.mem_cons_self
    rcases h r hmem i hi with hlt | ⟨-, rfl⟩
    · exact absurd hlt (Nat.not_lt.2 hle)
    · exact hunread before r after hsplit hi

namespace StencilFamilyBuilder

section Requested

variable {checks : Bool} {metadata : Metadata} {registers : NonZeroU16} {calls : List StencilCall}
  {b : StencilFamilyBuilder} {inputs : Vector Location b.family.IN}
  {outputs : Vector Location b.family.OUT} {holes : Vector Usize b.family.HOLES}

/-- The lists that are walked are those of the calls, so a hole can be missing only as the last one. -/
theorem Filled.walkEnds_iff (F : Filled checks metadata calls b) :
    WalkEnds b.family.MAX_REGS calls inputs.toList outputs.toList holes.toList ↔
      ∀ call ∈ walkedCall b.family.MAX_REGS calls
        (ioToIndex inputs.toList outputs.toList b.family.MAX_REGS false),
        LastHoleUnread holes.toList call.relocations := by
  apply forall₂_congr
  intro call hcall
  have hcounted := (F.admitted call (mem_of_walkedCall hcall)).holes
  have hlen : b.family.HOLES < 2 ^ 16 := by
    rw [(dimensions_of_bare F.bare).2.2.2]
    exact metadata.holes.isLt
  rw [← holes.length_toList] at hcounted hlen
  exact holesExist_iff hcounted hlen

/-- Selection that returns has walked its list to the end. -/
theorem Filled.walkEnds_of_select (F : Filled checks metadata calls b) (hcalls : calls ≠ [])
    (hvalid : ∀ call ∈ calls, ∀ r ∈ call.relocations, r.isInvalid = false)
    {found : Option SelectedStencil} (h : b.family.typed.select inputs outputs holes = some found) :
    WalkEnds b.family.MAX_REGS calls inputs.toList outputs.toList holes.toList := by
  simp only [Core.StencilFamily.select, Option.bind_eq_bind] at h
  obtain ⟨stencil, hstencil, h⟩ := Option.bind_eq_some_iff.1 h
  obtain ⟨relocs, hrelocs, h⟩ := Option.bind_eq_some_iff.1 h
  obtain ⟨fits, hfits, -⟩ := Option.bind_eq_some_iff.1 h
  obtain ⟨call, hcall, relocs', hrelocs', hprefix⟩ := F.walk hcalls hstencil
  obtain rfl := Option.some.inj (hrelocs.symm.trans hrelocs')
  intro c hc
  obtain rfl := Option.some.inj (hcall.symm.trans hc)
  exact (isSome_narrowFits_iff hprefix (hvalid call (mem_of_walkedCall hcall))).1 (by rw [hfits]; rfl)

/-- Selection in a family that was filled as requested, where the walk ends. -/
theorem Filled.select_requested (F : Filled checks metadata calls b)
    (R : Requested metadata registers calls) (hcode : ∀ call ∈ calls, call.code.len ≠ 0)
    (hvalid : ∀ call ∈ calls, ∀ r ∈ call.relocations, r.isInvalid = false)
    (hlocs : ∀ i, Location.register i ∈ inputs.toList ++ outputs.toList → i < metadata.maxRegs - 1)
    (hends : WalkEnds b.family.MAX_REGS calls inputs.toList outputs.toList holes.toList) :
    Complete b.family calls inputs outputs holes := by
  obtain ⟨hin, hout, hmax, hholes⟩ := dimensions_of_bare F.bare
  replace hmax : b.family.MAX_REGS = registers.val.toNat := by
    rw [hmax, ← R.maxRegs]
    rfl
  rw [R.maxRegs] at hlocs
  have htable : InTable metadata.inputs.toNat metadata.outputs.toNat registers.val.toNat
      inputs.toList outputs.toList :=
    inTable_of_lt (by rw [Vector.length_toList, hin]; rfl) (by rw [Vector.length_toList, hout]; rfl)
      hlocs
  obtain ⟨wide, stencil, hselect, hholds, hwide⟩ := F.select_eq R.ne_nil hvalid
    ⟨Vector.length_toList, Vector.length_toList, by rw [hmax]; exact htable.digits⟩ hends
  have hexists : (∃ call ∈ calls, call.For inputs.toList outputs.toList wide) ↔
      DistinctRegisters outputs.toList := by
    apply R.exists_for_iff htable
    intro h
    have hpos := hwide h
    rw [hholes] at hpos
    exact hpos
  refine ⟨_, hselect, ?_⟩
  rw [hmax] at hholds
  cases hlast : lastCall registers.val.toNat calls
      (ioToIndex inputs.toList outputs.toList registers.val.toNat wide) with
  | none =>
      -- no call filled the slot, so there is none for these operands
      rw [hlast] at hholds
      obtain rfl := hholds
      have hnone : SelectedStencil.new wide default = none := rfl
      rw [hnone, ← hexists]
      refine ⟨iff_of_false (by simp) ?_, by simp⟩
      rintro ⟨call, hcall, hfor⟩
      exact lastCall_eq_none_iff.1 hlast call hcall ((R.slot_eq_iff htable hcall wide).2 hfor)
  | some call =>
      rw [hlast] at hholds
      obtain ⟨hcall, heq⟩ := lastCall_eq_some hlast
      have hfor := (R.slot_eq_iff htable hcall wide).1 heq
      have hlen : stencil.codeLen ≠ 0 := by
        intro h0
        apply hcode call hcall
        rw [← hholds.codeLen, h0]
        rfl
      have hsome : SelectedStencil.new wide stencil = some ⟨wide, stencil⟩ := if_neg hlen
      rw [hsome]
      refine ⟨iff_of_true rfl (hexists.1 ⟨call, hcall, hfor⟩), ?_⟩
      rintro sel hsel
      obtain rfl := Option.some.inj hsel
      exact ⟨call, hcall, hfor, StoredIn.of_stores hholds (hvalid call hcall)⟩

end Requested

end StencilFamilyBuilder

open StencilFamilyBuilder

/-- **Family completeness.** Build a family with one call for every vector of the iterator and width,
in any order. For operands in registers of the family it is complete exactly when the list that is
walked for them does not come to the hole `0xFFFF`. -/
theorem select_addStencils_iff {checks : Bool} {metadata : Metadata} {registers : NonZeroU16}
    (hregs : metadata.maxRegs = registers.val) {fuel : Nat} {vs : List (List U16)}
    (hvs : (RegPermutation.new metadata.inputs metadata.outputs registers).bind
      (RegPermutation.collect fuel) = some vs)
    {calls : List StencilCall}
    (hcalls : (calls.map fun call => (call.io, call.wide)).Perm (requests metadata vs))
    (hcode : ∀ call ∈ calls, call.code.len ≠ 0)
    (hvalid : ∀ call ∈ calls, ∀ r ∈ call.relocations, r.isInvalid = false)
    {b : StencilFamilyBuilder}
    (hadd : (new metadata).addStencils checks calls = some (.ok (), b))
    (inputs : Vector Location b.finalize.IN) (outputs : Vector Location b.finalize.OUT)
    (hlocs : ∀ i, Location.register i ∈ inputs.toList ++ outputs.toList → i < metadata.maxRegs - 1)
    (holes : Vector Usize b.finalize.HOLES) :
    Complete b.finalize calls inputs outputs holes ↔
      ∀ call ∈ walkedCall b.finalize.MAX_REGS calls
        (ioToIndex inputs.toList outputs.toList b.finalize.MAX_REGS false),
        LastHoleUnread holes.toList call.relocations := by
  have F := filled_addStencils hadd
  have R := Requested.of_perm hregs hvs hcalls
  refine Iff.trans ?_ F.walkEnds_iff
  constructor
  · rintro ⟨found, hselect, -⟩
    exact F.walkEnds_of_select R.ne_nil hvalid hselect
  · exact F.select_requested R hcode hvalid hlocs

/-- With overflow checks no call of a family has an entry for the hole `0xFFFF`. -/
theorem lastHoleUnread_of_checks {metadata : Metadata} {calls : List StencilCall}
    {b : StencilFamilyBuilder} (hadd : (new metadata).addStencils true calls = some (.ok (), b))
    (holes : List Usize) : ∀ call ∈ calls, LastHoleUnread holes call.relocations := by
  have F := filled_addStencils hadd
  rintro call hcall before r after hsplit hi
  have hmem : r ∈ call.relocations := by
    rw [hsplit]
    exact List.mem_append_right _ List.mem_cons_self
  rcases (F.admitted call hcall).holes r hmem _ hi with hlt | ⟨hchecks, -⟩
  · rw [(dimensions_of_bare F.bare).2.2.2] at hlt
    have hholes := metadata.holes.isLt
    exact absurd hlt (Nat.not_lt.2 (Nat.le_of_lt_succ hholes))
  · cases hchecks

/-- The stencils of a function with one output and one hole, for one register. -/
def oneOutputCalls : List StencilCall :=
  [⟨[], ⟨0, 4⟩, argsOf 0 [1], false, [⟨0x20010000⟩]⟩,
    ⟨[], ⟨4, 12⟩, argsOf 0 [0], true, [⟨0x40010000⟩]⟩,
    ⟨[], ⟨12, 16⟩, argsOf 0 [0], false, [⟨0x20010000⟩]⟩,
    ⟨[], ⟨16, 24⟩, argsOf 0 [1], true, [⟨0x40010000⟩]⟩]

def oneOutputFamily : StencilFamilyBuild :=
  ⟨0, 1, 2, 1, 0, [⟨0x20010000⟩, .new, ⟨0x40010000⟩, .new],
    [⟨12, 4, 0⟩, ⟨0, 4, 0⟩, ⟨4, 8, 2⟩, ⟨16, 8, 2⟩], []⟩

theorem addStencils_oneOutputCalls :
    (new ⟨0, 1, 2, 1, 0, []⟩).addStencils true oneOutputCalls =
      some (.ok (), ⟨oneOutputFamily, [([⟨0x40010000⟩], 2), ([⟨0x20010000⟩], 0)]⟩) := by
  decide +kernel

theorem select_oneOutputFamily :
    Complete oneOutputFamily oneOutputCalls #v[] #v[.register 0] #v[0x100000000] := by
  have hlocs : ∀ i, Location.register i ∈ [] ++ [Location.register 0] → i < (2 : U16) - 1 := by
    intro i hi
    obtain rfl : i = 0 := by simpa using hi
    decide
  refine (@select_addStencils_iff true ⟨0, 1, 2, 1, 0, []⟩ ⟨2, by decide⟩ rfl _ _
    (@RegPermutation.collect_new 0 1 ⟨2, by decide⟩ _ rfl _ (Nat.le_refl _)) oneOutputCalls
    (by decide) (by decide) (by decide) _ addStencils_oneOutputCalls
    #v[] #v[.register 0] hlocs #v[0x100000000]).2 ?_
  intro call hcall
  exact lastHoleUnread_of_checks addStencils_oneOutputCalls _ call (mem_of_walkedCall hcall)

/-- That value does not fit the narrow stencil. -/
example : oneOutputFamily.typed.select #v[] #v[.register 0] #v[0x100000000] =
    some (some ⟨true, ⟨16, 8, 2⟩⟩) := by decide

/-- The stencils of a function with one hole, with an entry for the last hole there could be. -/
def lastHoleCalls : List StencilCall :=
  [⟨[], ⟨0, 4⟩, argsOf 0 [], false, [⟨0xFFFF000020010000⟩]⟩,
    ⟨[], ⟨4, 12⟩, argsOf 0 [], true, [⟨0x40010000⟩]⟩]

def lastHoleFamily : StencilFamilyBuild :=
  ⟨0, 0, 1, 1, 0, [⟨0xFFFF000020010000⟩, .new, ⟨0x40010000⟩, .new], [⟨0, 4, 0⟩, ⟨4, 8, 2⟩], []⟩

theorem addStencils_lastHoleCalls :
    (new ⟨0, 0, 1, 1, 0, []⟩).addStencils false lastHoleCalls =
      some (.ok (), ⟨lastHoleFamily, [([⟨0x40010000⟩], 2), ([⟨0xFFFF000020010000⟩], 0)]⟩) := by
  decide +kernel

/-- The walk over the narrow stencil's list asks for the value of the hole `0xFFFF`. -/
theorem not_select_addStencils : ¬ ∀ (checks : Bool) (metadata : Metadata) (registers : NonZeroU16)
    (fuel : Nat) (vs : List (List U16)) (calls : List StencilCall) (b : StencilFamilyBuilder),
    metadata.maxRegs = registers.val →
    (RegPermutation.new metadata.inputs metadata.outputs registers).bind
      (RegPermutation.collect fuel) = some vs →
    (calls.map fun call => (call.io, call.wide)).Perm (requests metadata vs) →
    (∀ call ∈ calls, call.code.len ≠ 0) →
    (∀ call ∈ calls, ∀ r ∈ call.relocations, r.isInvalid = false) →
    (new metadata).addStencils checks calls = some (.ok (), b) →
    ∀ (inputs : Vector Location b.finalize.IN) (outputs : Vector Location b.finalize.OUT),
      (∀ i, Location.register i ∈ inputs.toList ++ outputs.toList → i < metadata.maxRegs - 1) →
      ∀ holes : Vector Usize b.finalize.HOLES, Complete b.finalize calls inputs outputs holes := by
  intro hall
  obtain ⟨found, hselect, -⟩ := hall false ⟨0, 0, 1, 1, 0, []⟩ ⟨1, by decide⟩ _ _ lastHoleCalls _ rfl
    (@RegPermutation.collect_new 0 0 ⟨1, by decide⟩ _ rfl _ (Nat.le_refl _)) (by decide) (by decide)
    (by decide) addStencils_lastHoleCalls #v[] #v[] (fun i hi => absurd hi List.not_mem_nil) #v[0]
  have hnone : lastHoleFamily.typed.select #v[] #v[] #v[0] = none := by decide
  exact absurd (hnone.symm.trans hselect) (by simp)

end Patchouly.Build
