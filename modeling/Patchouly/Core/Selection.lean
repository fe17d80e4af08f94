import Mathlib.Data.Nat.Digits.Defs
import Patchouly.Core.Stencils
import Patchouly.Lib.Pool

/-!
# Slots and walks (`patchouly-core`, `stencils.rs`)

`ioToIndex` reads the operand locations as the digits of a number in base `maxRegs`, so two operand
vectors with digits below the base have different slots (`ioToIndex_inj`), and the wide half of a
table starts where the narrow one ends (`ioToIndex_narrow_lt`).

`select`'s walk over a relocation list ends at the list's end marker, wherever the list stands, unless it
comes to an entry for a hole that does not exist (`isSome_narrowFits_iff`).
-/

set_option autoImplicit false

namespace Patchouly.Core

open Patchouly.Lib

/-! ## Slots -/

/-- The last operand is the lowest digit. -/
theorem ioIndexAux_eq (maxRegs i : Nat) (vars : List Location) :
    ioIndexAux maxRegs i vars =
      maxRegs ^ vars.length * i + Nat.ofDigits maxRegs (vars.map Location.digit).reverse := by
  induction vars generalizing i with
  | nil => simp [ioIndexAux]
  | cons var vars ih =>
      rw [ioIndexAux, ih, List.map_cons, Nat.ofDigits_reverse_cons, List.length_map,
        List.length_cons, Nat.pow_succ, Nat.mul_add, ← Nat.mul_assoc]
      omega

/-- Digits below the base, for every base. -/
theorem ofDigits_lt {base : Nat} {digits : List Nat} (h : ∀ d ∈ digits, d < base) :
    Nat.ofDigits base digits < base ^ digits.length := by
  induction digits with
  | nil => simp
  | cons d ds ih =>
      have hd := h d List.mem_cons_self
      have hds := ih fun e he => h e (List.mem_cons_of_mem d he)
      rw [Nat.ofDigits_cons, List.length_cons, Nat.pow_succ, Nat.mul_comm _ base]
      calc d + base * Nat.ofDigits base ds
          < base * (Nat.ofDigits base ds + 1) := by rw [Nat.mul_add]; omega
        _ ≤ base * base ^ ds.length := Nat.mul_le_mul_left base hds

theorem ofDigits_inj {base : Nat} {ds es : List Nat} (hlen : ds.length = es.length)
    (hds : ∀ d ∈ ds, d < base) (hes : ∀ e ∈ es, e < base)
    (h : Nat.ofDigits base ds = Nat.ofDigits base es) : ds = es := by
  by_cases hbase : 1 < base
  · exact Nat.ofDigits_inj_of_len_eq hbase hlen hds hes h
  · -- base one has the digit zero only
    have hds0 : ∀ d ∈ ds, d = 0 := fun d hd => by
      have hd := hds d hd
      omega
    have hes0 : ∀ e ∈ es, e = 0 := fun e he => by
      have he := hes e he
      omega
    rw [List.eq_replicate_of_mem hds0, List.eq_replicate_of_mem hes0, hlen]

/-- The locations of a table: as many as the family has operands, and digits below the base. -/
structure InTable (ins outs maxRegs : Nat) (inputs outputs : List Location) : Prop where
  inputsLen : inputs.length = ins
  outputsLen : outputs.length = outs
  digits : ∀ l ∈ inputs ++ outputs, l.digit < maxRegs

section Slots

variable {ins outs maxRegs : Nat} {inputs outputs : List Location}

theorem InTable.reverse_digits (h : InTable ins outs maxRegs inputs outputs) :
    ∀ d ∈ ((inputs ++ outputs).map Location.digit).reverse, d < maxRegs := by
  intro d hd
  obtain ⟨l, hl, rfl⟩ := List.mem_map.1 (List.mem_reverse.1 hd)
  exact h.digits l hl

/-- A narrow slot is in the first half of the table. -/
theorem ioToIndex_narrow_lt (h : InTable ins outs maxRegs inputs outputs) :
    ioToIndex inputs outputs maxRegs false < stencilsLen ins outs maxRegs := by
  have hlt := ofDigits_lt h.reverse_digits
  rw [List.length_reverse, List.length_map, List.length_append, h.inputsLen, h.outputsLen] at hlt
  simpa [ioToIndex, ioIndexAux_eq, stencilsLen] using hlt

theorem ioToIndex_wide (h : InTable ins outs maxRegs inputs outputs) :
    ioToIndex inputs outputs maxRegs true =
      ioToIndex inputs outputs maxRegs false + stencilsLen ins outs maxRegs := by
  rw [← h.inputsLen, ← h.outputsLen]
  simp [ioToIndex]

/-- A slot depends on the digits only. -/
theorem ioToIndex_congr {inputs' outputs' : List Location}
    (hins : inputs.map Location.digit = inputs'.map Location.digit)
    (houts : outputs.map Location.digit = outputs'.map Location.digit) (wide : Bool) :
    ioToIndex inputs outputs maxRegs wide = ioToIndex inputs' outputs' maxRegs wide := by
  have hinsLen := congrArg List.length hins
  have houtsLen := congrArg List.length houts
  rw [List.length_map, List.length_map] at hinsLen houtsLen
  simp only [ioToIndex, ioIndexAux_eq, List.map_append, hins, houts, hinsLen, houtsLen,
    List.length_append]

/-- **Slots are not shared**: operands with digits below the base, and the width, can be read off. -/
theorem ioToIndex_inj {inputs' outputs' : List Location} {wide wide' : Bool}
    (h : InTable ins outs maxRegs inputs outputs) (h' : InTable ins outs maxRegs inputs' outputs')
    (heq : ioToIndex inputs outputs maxRegs wide = ioToIndex inputs' outputs' maxRegs wide') :
    (inputs ++ outputs).map Location.digit = (inputs' ++ outputs').map Location.digit ∧
      wide = wide' := by
  have hlt := ioToIndex_narrow_lt h
  have hlt' := ioToIndex_narrow_lt h'
  -- the width is the half of the table
  have hhalf : wide = wide' ∧
      ioToIndex inputs outputs maxRegs false = ioToIndex inputs' outputs' maxRegs false := by
    cases wide <;> cases wide' <;>
      simp only [ioToIndex_wide h, ioToIndex_wide h', true_and, Bool.false_eq_true, reduceCtorEq,
        false_and] at heq ⊢ <;>
      omega
  refine ⟨?_, hhalf.1⟩
  have heq := hhalf.2
  simp only [ioToIndex, ioIndexAux_eq, Bool.false_eq_true, if_false, Nat.mul_zero, Nat.zero_add,
    Nat.add_zero] at heq
  apply List.reverse_injective
  apply ofDigits_inj ?_ h.reverse_digits h'.reverse_digits heq
  simp [h.inputsLen, h.outputsLen, h'.inputsLen, h'.outputsLen]

end Slots

/-! ## Walks -/

theorem isInvalid_new : Relocation.new.isInvalid = true := by decide

/-- The hole that an entry patches is one of the first `holes`. -/
def HolesBelow (holes : Nat) (relocs : List Relocation) : Prop :=
  ∀ r ∈ relocs, ∀ i, r.patchInfo = some (.hole i) → i.toNat < holes

/-- The entry is for a hole whose value it does not support, where the walk of `select` gives up. -/
def GivesUp (holes : List Usize) (r : Relocation) : Prop :=
  ∃ i value, r.patchInfo = some (.hole i) ∧ holes[i.toNat]? = some value ∧
    r.supportsValue value = false

/-- In front of every entry for a hole that does not exist there is one where the walk gives up. -/
def HolesExist (holes : List Usize) (relocs : List Relocation) : Prop :=
  ∀ before r after i, relocs = before ++ r :: after → r.patchInfo = some (.hole i) →
    holes.length ≤ i.toNat → ∃ r' ∈ before, GivesUp holes r'

theorem HolesBelow.exist {holes : List Usize} {relocs : List Relocation}
    (h : HolesBelow holes.length relocs) : HolesExist holes relocs := by
  rintro before r after i rfl hi hle
  exact absurd (h r (List.mem_append_right _ List.mem_cons_self) i hi) (Nat.not_lt.2 hle)

theorem holesExist_nil (holes : List Usize) : HolesExist holes [] := by
  intro before r after i h
  exact absurd h.symm (List.append_ne_nil_of_right_ne_nil _ (List.cons_ne_nil _ _))

/-- One entry: its hole exists, and the rest is walked unless the walk gives up here. -/
theorem holesExist_cons {holes : List Usize} {r : Relocation} {relocs : List Relocation} :
    HolesExist holes (r :: relocs) ↔
      (∀ i, r.patchInfo = some (.hole i) → i.toNat < holes.length) ∧
        (GivesUp holes r ∨ HolesExist holes relocs) := by
  constructor
  · intro h
    constructor
    · intro i hi
      by_contra hle
      obtain ⟨r', hr', -⟩ := h [] r relocs i rfl hi (Nat.le_of_not_lt hle)
      cases hr'
    · by_cases hgive : GivesUp holes r
      · exact Or.inl hgive
      · right
        intro before r' after i hsplit hi hle
        obtain ⟨g, hg, hgives⟩ := h (r :: before) r' after i (by rw [hsplit]; rfl) hi hle
        rcases List.mem_cons.1 hg with rfl | hg
        · exact absurd hgives hgive
        · exact ⟨g, hg, hgives⟩
  · rintro ⟨hfirst, hrest⟩ before r' after i hsplit hi hle
    cases before with
    | nil =>
        obtain ⟨rfl, -⟩ := List.cons.inj hsplit
        exact absurd (hfirst i hi) (Nat.not_lt.2 hle)
    | cons g before =>
        obtain ⟨rfl, rfl⟩ := List.cons.inj hsplit
        rcases hrest with hgives | hrest
        · exact ⟨r, List.mem_cons_self, hgives⟩
        · obtain ⟨g, hg, hgives⟩ := hrest before r' after i rfl hi hle
          exact ⟨g, List.mem_cons_of_mem r hg, hgives⟩

/-- The slots that `select` looks up. -/
def StencilFamily.lookups {IN OUT MAX_REGS HOLES JUMPS : Nat}
    (self : StencilFamily IN OUT MAX_REGS HOLES JUMPS) (inputs : Vector Location IN)
    (outputs : Vector Location OUT) (holes : Vector Usize HOLES) : List Nat :=
  let index := ioToIndex inputs.toList outputs.toList MAX_REGS false
  let narrow := (self.stencils[index]?).bind fun stencil =>
    (stencil.relocations self).bind (narrowFits holes.toList)
  if narrow = some false then [index, index + stencilsLen IN OUT MAX_REGS] else [index]

section Walks

variable {holes : List Usize} {own relocs : List Relocation}

/-- One entry of a walk. -/
theorem narrowFits_cons {r : Relocation} (hvalid : r.isInvalid = false) :
    (∃ i, r.patchInfo = some (.hole i) ∧ holes.length ≤ i.toNat ∧
      narrowFits holes (r :: relocs) = none) ∨
    (∀ i, r.patchInfo = some (.hole i) → i.toNat < holes.length) ∧
      (GivesUp holes r ∧ narrowFits holes (r :: relocs) = some false ∨
        ¬ GivesUp holes r ∧ narrowFits holes (r :: relocs) = narrowFits holes relocs) := by
  rw [narrowFits, if_neg (by simp [hvalid])]
  split
  · next i hi =>
    cases hvalue : holes[i.toNat]? with
    | none => exact Or.inl ⟨i, hi, List.getElem?_eq_none_iff.1 hvalue, rfl⟩
    | some value =>
        refine Or.inr ⟨?_, ?_⟩
        · intro k hk
          obtain rfl := PatchInfo.hole.inj (Option.some.inj (hi.symm.trans hk))
          exact (List.getElem?_eq_some_iff.1 hvalue).1
        · rw [Option.bind_some]
          by_cases hfits : r.supportsValue value = true
          · right
            refine ⟨?_, if_pos hfits⟩
            rintro ⟨k, value', hk, hvalue', hnot⟩
            obtain rfl := PatchInfo.hole.inj (Option.some.inj (hi.symm.trans hk))
            obtain rfl := Option.some.inj (hvalue.symm.trans hvalue')
            rw [hfits] at hnot
            cases hnot
          · exact Or.inl ⟨⟨i, value, hi, hvalue, Bool.eq_false_iff.2 hfits⟩, if_neg hfits⟩
  · next hnone =>
    refine Or.inr ⟨fun i hi => absurd hi (hnone i), Or.inr ⟨?_, rfl⟩⟩
    rintro ⟨i, -, hi, -⟩
    exact hnone i hi

/-- **The walk over a list that stands in the pool** ends exactly if it comes to no hole that does not
exist. -/
theorem isSome_narrowFits_iff (h : own ++ [Relocation.new] <+: relocs)
    (hvalid : ∀ r ∈ own, r.isInvalid = false) :
    (narrowFits holes relocs).isSome = true ↔ HolesExist holes own := by
  obtain ⟨rest, rfl⟩ := h
  induction own with
  | nil => exact iff_of_true (by simp [narrowFits, isInvalid_new]) (holesExist_nil holes)
  | cons r own ih =>
      have ih := ih fun r' hr' => hvalid r' (List.mem_cons_of_mem r hr')
      rw [List.cons_append, List.cons_append, holesExist_cons]
      rcases narrowFits_cons (hvalid r List.mem_cons_self) with ⟨i, hi, hle, hnone⟩ | ⟨hlt, hstep⟩
      · rw [hnone]
        exact iff_of_false (by simp) fun hexist => absurd (hexist.1 i hi) (Nat.not_lt.2 hle)
      · rw [and_iff_right hlt]
        rcases hstep with ⟨hgives, heq⟩ | ⟨hgives, heq⟩
        · rw [heq]
          exact iff_of_true rfl (Or.inl hgives)
        · rw [heq, ih, or_iff_right hgives]

/-- The walk over a list that stands in the pool gives up only at a hole. -/
theorem holes_pos_of_narrowFits (h : own ++ [Relocation.new] <+: relocs)
    (hfalse : narrowFits holes relocs = some false) : 0 < holes.length := by
  obtain ⟨rest, rfl⟩ := h
  induction own with
  | nil => simp [narrowFits, isInvalid_new] at hfalse
  | cons r own ih =>
      rw [List.cons_append, List.cons_append] at hfalse
      by_cases hinvalid : r.isInvalid = true
      · simp [narrowFits, hinvalid] at hfalse
      · rcases narrowFits_cons (Bool.eq_false_iff.2 hinvalid) with ⟨-, -, -, hnone⟩ | ⟨hlt, hstep⟩
        · rw [hnone] at hfalse
          cases hfalse
        · rcases hstep with ⟨⟨i, -, hi, -⟩, -⟩ | ⟨-, heq⟩
          · exact Nat.lt_of_le_of_lt (Nat.zero_le _) (hlt i hi)
          · exact ih (heq.symm.trans hfalse)

end Walks

/-- A list without invalid entries is read up to its end marker. -/
theorem validEntries_eq {own relocs : List Relocation} (h : own ++ [Relocation.new] <+: relocs)
    (hvalid : ∀ r ∈ own, r.isInvalid = false) : validEntries relocs = own := by
  obtain ⟨rest, rfl⟩ := h
  rw [validEntries, List.append_assoc, List.takeWhile_append_of_pos (by simpa using hvalid),
    List.singleton_append, List.takeWhile_cons_of_neg (by simp [isInvalid_new]), List.append_nil]

end Patchouly.Core
