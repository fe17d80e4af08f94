import Patchouly.Macros.Wrapper

/-!
# Wrappers are exact register transfers

`Plain` is a stencil that goes on to the next one, with a vector that the iterator yields for it. Its
wrapper calls the user's function with the incoming operands, stores the outputs on the stack, and
passes every register on: an output's register holds that output and any other register its incoming
value (`Transfers`). The exceptions are a function whose name is one of the wrapper's variables, a raw
identifier as a name, and a tuple of one as the return type (`transfers_iff`).
-/

set_option autoImplicit false

namespace Patchouly.Macros

open Patchouly.Lib

namespace StencilFamily

/-- Number of register parameters. -/
def registers (fam : StencilFamily) : Nat := fam.options.getRegisters.val.toNat - 1

section Spec

variable {S : Type} (fam : StencilFamily) (v : List U16) (wide : WidthVariant)

/-- The value that an argument of the user's function stands for. -/
def argument (m : Machine S) (regs : List Usize) (stack : S) : CallArg → Option Value
  | .arg i =>
      v[i.toNat]?.bind fun d =>
        if d = 0 then
          some (.word (m.get stack
            (m.address (fam.symbolOf (numbered "stack" (stackBefore v i.toNat))))))
        else regs[d.toNat - 1]?.map .word
  | .hole k =>
      let sym := fam.symbolOf (numbered "hole" k.toNat)
      some (.word (if wide then m.load (sym ++ "__wide".toList) else m.address sym))
  | .stack => some .stack
  | .target _ => none

/-- One `stack.set` for each output on the stack. -/
def stackSets (outs : List Usize) : List Event :=
  (stackPositions v fam.sig.inputs.toNat fam.sig.outputs.toNat).map fun p =>
    .set (fam.symbolOf (numbered "stack" (stackBefore v p)))
      (outs.getD (p - fam.sig.inputs.toNat) 0)

/-- The registers passed on: the outputs where they are located, the incoming values elsewhere. -/
structure Passes (regs outs next : List Usize) : Prop where
  length : next.length = fam.registers
  output : ∀ j d, v[fam.sig.inputs.toNat + j]? = some d → d ≠ 0 →
    next[d.toNat - 1]? = outs[j]?
  other : ∀ r, r < fam.registers → registerDigit r ∉ v.drop fam.sig.inputs.toNat →
    next[r]? = regs[r]?

/-- The names of the wrapper's variables before the call. -/
def localNames : List Ident :=
  stackIdent :: ((List.range fam.registers).map (registerName fam.sig.inputs.toNat v) ++
    (List.range fam.sig.holeNames.length).map (numbered "hole") ++
    (stackPositions v 0 fam.sig.inputs.toNat).map fun p => numbered "stack" (stackBefore v p))

/-- **An exact register transfer**, for functions with this return type. -/
structure Transfers (output : ReturnType) (w : Wrapper) : Prop where
  nodup : w.params.Nodup
  apart : ∀ x ∈ w.params, ∀ n, x ≠ numbered "stack" n ∧ x ≠ numbered "hole" n
  run : ∀ (S : Type) (m : Machine S)
    (fn : List Value → S → Vector Usize fam.sig.outputs.toNat × S)
    (regs : Vector Usize fam.registers) (stack : S), ∃ args final next,
      fam.sig.callArgs.mapM (fam.argument v wide m regs.toList stack) = some args ∧
      w.run (m.calling output fn) regs.toList stack =
        some ⟨.call args :: fam.stackSets v (fn args stack).1.toList, final,
          .become "copy_and_patch_next".toList next⟩ ∧
      fam.Passes v regs.toList (fn args stack).1.toList next

/-- A stencil that goes on to the next one, with one of its location vectors. -/
structure Plain (output : ReturnType) : Prop where
  sig : fam.sig.Valid
  outputs : output.outputs = some fam.sig.outputs.toNat
  returns : fam.options.returns = false
  trampoline : fam.options.trampoline = false
  targetEnum : fam.sig.targetEnum = none
  located : RegPermutation.Located fam.sig.inputs.toNat fam.sig.outputs.toNat
    fam.options.getRegisters.val v

end Spec

namespace Plain

variable {S : Type} {fam : StencilFamily} {v : List U16} {output : ReturnType} {wide : WidthVariant}

theorem length_lt (P : fam.Plain v output) : v.length < 2 ^ 16 := by
  have hbound := P.sig.bound
  rw [P.located.length]
  omega

theorem toNat_maxRegs (fam : StencilFamily) :
    (fam.options.getRegisters.val - 1).toNat = fam.registers := by
  have hne : fam.options.getRegisters.val.toNat ≠ 0 := fun h =>
    fam.options.getRegisters.property (BitVec.eq_of_toNat_eq h)
  have hone : (1 : U16).toNat = 1 := by decide
  rw [BitVec.toNat_sub_of_le (by rw [BitVec.le_def]; omega), hone]
  rfl

theorem le_maxRegs_of_lt {fam : StencilFamily} (hlt : ∀ d ∈ v, d < fam.options.getRegisters.val) :
    ∀ d ∈ v, d ≤ fam.options.getRegisters.val - 1 := by
  intro d hd
  have hlt := hlt d hd
  rw [BitVec.lt_def] at hlt
  rw [BitVec.le_def, toNat_maxRegs, registers]
  omega

theorem le_maxRegs (P : fam.Plain v output) : ∀ d ∈ v, d ≤ fam.options.getRegisters.val - 1 :=
  le_maxRegs_of_lt P.located.lt

theorem registers_lt (fam : StencilFamily) {r : Nat} (hr : r < fam.registers) : r < 65535 := by
  have hlt := fam.options.getRegisters.val.isLt
  rw [registers] at hr
  omega

/-- The register of an operand that is not on the stack. -/
theorem register_lt (P : fam.Plain v output) {j : Nat} {d : U16} (hj : v[j]? = some d) (hd : d ≠ 0) :
    d.toNat - 1 < fam.registers := by
  have hdn : d.toNat ≠ 0 := fun h => hd (BitVec.eq_of_toNat_eq h)
  have hle := P.le_maxRegs d (List.mem_of_getElem? hj)
  rw [BitVec.le_def, toNat_maxRegs] at hle
  omega

/-! ### Names -/

def paramNames (fam : StencilFamily) (v : List U16) : List Ident :=
  (List.range fam.registers).map (registerName fam.sig.inputs.toNat v)

def holeIdents (fam : StencilFamily) : List Ident :=
  (List.range fam.sig.holeNames.length).map (numbered "hole")

def inputNames (fam : StencilFamily) (v : List U16) : List Ident :=
  (stackPositions v 0 fam.sig.inputs.toNat).map (operand fam.sig.inputs.toNat v)

def outputNames (fam : StencilFamily) (v : List U16) : List Ident :=
  (List.range' fam.sig.inputs.toNat fam.sig.outputs.toNat).map (operand fam.sig.inputs.toNat v)

theorem paramNames_nodup (fam : StencilFamily) (v : List U16) : (paramNames fam v).Nodup := by
  apply List.Nodup.map_on _ List.nodup_range
  intro r hr r' hr' heq
  exact registerName_inj (registers_lt fam (List.mem_range.1 hr))
    (registers_lt fam (List.mem_range.1 hr')) heq

theorem registerName_ne_stackIdent (inputs : Nat) (v : List U16) (r : Nat) :
    registerName inputs v r ≠ stackIdent := by
  intro h
  have hkey := congrArg key h
  have hstack : key stackIdent = (some 's', []) := rfl
  rw [registerName, key_name, hstack] at hkey
  cases hu : registerUse inputs v r <;> simp [hu] at hkey

theorem stackIdent_notMem_holeIdents (fam : StencilFamily) : stackIdent ∉ holeIdents fam := by
  intro h
  obtain ⟨k, -, hk⟩ := List.mem_map.1 h
  have hkey := congrArg key hk
  rw [key_hole] at hkey
  cases hkey

/-- The names of stack inputs are stack names. -/
theorem eq_stack_of_mem_inputNames {x : Ident} (h : x ∈ inputNames fam v) :
    ∃ n, x = numbered "stack" n := by
  obtain ⟨p, hp, rfl⟩ := List.mem_map.1 h
  exact ⟨_, operand_stack (mem_stackPositions.1 hp).2⟩

theorem stackIdent_notMem_inputNames (fam : StencilFamily) (v : List U16) :
    stackIdent ∉ inputNames fam v := by
  intro h
  obtain ⟨n, hn⟩ := eq_stack_of_mem_inputNames h
  exact numbered_ne_stem "stack" n hn.symm

/-- Two operands that share a name share a register or are one operand on the stack. -/
theorem operand_inj (P : fam.Plain v output) {i j : Nat} (hi : i < v.length) (hj : j < v.length)
    (heq : operand fam.sig.inputs.toNat v i = operand fam.sig.inputs.toNat v j) :
    v[i]? = v[j]? ∧ (v[i]? = some 0 → i = j) := by
  obtain ⟨d, hd⟩ : ∃ d, v[i]? = some d := ⟨_, List.getElem?_eq_getElem hi⟩
  obtain ⟨e, he⟩ : ∃ e, v[j]? = some e := ⟨_, List.getElem?_eq_getElem hj⟩
  by_cases hd0 : d = 0
  · subst hd0
    by_cases he0 : e = 0
    · subst he0
      refine ⟨hd.trans he.symm, fun _ => ?_⟩
      rw [operand_stack hd, operand_stack he] at heq
      have hn := numbered_injective "stack" heq
      -- stack numbers grow with the position
      rcases Nat.lt_trichotomy i j with hlt | hij | hlt
      · exact absurd hn (Nat.ne_of_lt (stackBefore_lt hlt hd))
      · exact hij
      · exact absurd hn.symm (Nat.ne_of_lt (stackBefore_lt hlt he))
    · rw [operand_stack hd, operand_register he he0] at heq
      exact absurd heq.symm (registerName_ne_stack _ _ _ _)
  · by_cases he0 : e = 0
    · subst he0
      rw [operand_register hd hd0, operand_stack he] at heq
      exact absurd heq (registerName_ne_stack _ _ _ _)
    · rw [operand_register hd hd0, operand_register he he0] at heq
      have hr := registerName_inj (registers_lt fam (P.register_lt hd hd0))
        (registers_lt fam (P.register_lt he he0)) heq
      have hdn : d.toNat ≠ 0 := fun h => hd0 (BitVec.eq_of_toNat_eq h)
      have hen : e.toNat ≠ 0 := fun h => he0 (BitVec.eq_of_toNat_eq h)
      obtain rfl : d = e := BitVec.eq_of_toNat_eq (by omega)
      refine ⟨hd.trans he.symm, fun h => absurd (Option.some.inj (hd.symm.trans h)) hd0⟩

/-- **The outputs have different names.** -/
theorem outputNames_nodup (P : fam.Plain v output) : (outputNames fam v).Nodup := by
  apply List.Nodup.map_on _ List.nodup_range'
  intro i hi j hj heq
  simp only [List.mem_range'_1] at hi hj
  have hlen := P.located.length
  obtain ⟨hv, h0⟩ := P.operand_inj (by omega) (by omega) heq
  obtain ⟨d, hd⟩ : ∃ d, v[i]? = some d := ⟨_, List.getElem?_eq_getElem (by omega)⟩
  by_cases hd0 : d = 0
  · exact h0 (hd.trans (congrArg some hd0))
  · -- two outputs in one register would break the vector's rule
    rcases Nat.lt_trichotomy i j with hlt | hij | hlt
    · exact absurd (P.located.distinct i j d hi.1 hlt hd (hv ▸ hd)) hd0
    · exact hij
    · exact absurd (P.located.distinct j i d hj.1 hlt (hv ▸ hd) hd) hd0

theorem stackIdent_ne_operand (inputs : Nat) (v : List U16) (j : Nat) :
    operand inputs v j ≠ stackIdent := by
  rw [operand]
  split
  · exact numbered_ne_stem "stack" _
  · exact registerName_ne_stackIdent _ _ _

theorem stackIdent_notMem_outputNames (fam : StencilFamily) (v : List U16) :
    stackIdent ∉ outputNames fam v := by
  intro h
  obtain ⟨j, -, hj⟩ := List.mem_map.1 h
  exact stackIdent_ne_operand _ _ _ hj

/-! ### The wrapper -/

/-- The name an argument of the user's function is read from. -/
def argName (fam : StencilFamily) (v : List U16) : CallArg → Ident
  | .arg i => operand fam.sig.inputs.toNat v i.toNat
  | .hole k => numbered "hole" k.toNat
  | .stack => stackIdent
  | .target _ => []

def holeStmt (fam : StencilFamily) (wide : WidthVariant) (var : Ident) : Stmt :=
  if wide then .letWord var (fam.symbolOf var ++ WidthVariant.suffix wide)
  else .letAddress var (fam.symbolOf var ++ WidthVariant.suffix wide)

/-- The pattern of the call's results. -/
def callPattern : List Ident → Pattern
  | [ret] => .ident ret
  | rets => .tuple rets

/-- The statements of the wrapper. -/
def stmts (fam : StencilFamily) (v : List U16) (wide : WidthVariant) : List Stmt :=
  (holeIdents fam).map (holeStmt fam wide) ++
    (inputNames fam v).map (fun var => .letStackGet var (fam.symbolOf var)) ++
    [.letCall (callPattern (outputNames fam v)) fam.name
      (fam.sig.callArgs.map (argName fam v))] ++
    (stackPositions v fam.sig.inputs.toNat fam.sig.outputs.toNat).map fun p =>
      .stackSet (fam.symbolOf (operand fam.sig.inputs.toNat v p))
        (operand fam.sig.inputs.toNat v p)

theorem generateStencil_eq (P : fam.Plain v output) (hraw : '#' ∉ fam.name) (wide : WidthVariant) :
    ∃ w, fam.generateStencil v wide = some w ∧ w.params = paramNames fam v ∧
      w.stmts = stmts fam v wide ∧ w.tail = .becomeNext (paramNames fam v) := by
  have hlen := P.length_lt
  have hle := P.le_maxRegs
  have hlength := P.located.length
  obtain ⟨sig, hsig, D⟩ := @new_eq fam.sig.inputs.toNat v (fam.options.getRegisters.val - 1)
    (by omega) hlen hle
  have hregs : sig.regNames = paramNames fam v := by rw [D.regNames, toNat_maxRegs]; rfl
  have hlocs := D.length
  have hdrop : (sig.ioLocations.drop fam.sig.inputs.toNat).take fam.sig.outputs.toNat =
      sig.ioLocations.drop fam.sig.inputs.toNat :=
    List.take_of_length_le (by rw [List.length_drop]; omega)
  have hins := D.stackOperands hlen hle (a := 0) (n := fam.sig.inputs.toNat) (by omega)
  have houts := D.stackOperands hlen hle (a := fam.sig.inputs.toNat)
    (n := fam.sig.outputs.toNat) (by omega)
  have hrets := D.mapM_operandName hlen hle (a := fam.sig.inputs.toNat)
    (n := fam.sig.outputs.toNat) (by omega)
  rw [hdrop] at houts hrets
  rw [List.drop_zero] at hins
  -- every argument has a name
  have hargs : fam.sig.callArgs.mapM (fam.callArgName sig) =
      some (fam.sig.callArgs.map (argName fam v)) := by
    apply mapM_eq_map
    intro a ha
    cases a with
    | arg i =>
        have hi := P.sig.arg i ha
        obtain ⟨d, hd⟩ : ∃ d, v[i.toNat]? = some d := ⟨_, List.getElem?_eq_getElem (by omega)⟩
        have hloc := D.ioLocations i.toNat
        rw [hd, Option.map_some] at hloc
        rw [callArgName, hloc, Option.bind_some]
        exact D.operandName hlen (hle d (List.mem_of_getElem? hd)) hd
    | hole k =>
        have hk := P.sig.hole k ha
        rw [callArgName, P.sig.holeNames, List.getElem?_map, List.getElem?_range hk]
        rfl
    | stack => rfl
    | target i => exact absurd P.targetEnum (P.sig.target i ha)
  have hholes : holeIdents fam = fam.sig.holeNames := P.sig.holeNames.symm
  simp only [generateStencil, identNew_stencilSymbol, if_neg hraw, hsig, generateHoles, D.inputsNum, hins,
    houts, generateCall, hargs, hrets, P.returns, P.trampoline, P.targetEnum, generateNext, Option.bind_eq_bind,
    Option.bind_some, Option.pure_def, Option.isSome_none, Bool.false_eq_true, if_false,
    List.append_nil]
  refine ⟨_, rfl, hregs, ?_, by rw [hregs]⟩
  simp only [stmts, hholes, outputNames, inputNames, List.map_map]
  congr 4
  rcases List.map (operand fam.sig.inputs.toNat v)
    (List.range' fam.sig.inputs.toNat fam.sig.outputs.toNat) with _ | ⟨x, _ | ⟨y, xs⟩⟩ <;> rfl

/-! ### The environment of the call -/

section Run

variable {m : Machine S} {regs : List Usize} {stack : S}

def holeValue (fam : StencilFamily) (wide : WidthVariant) (m : Machine S) (x : Ident) : Value :=
  let sym := fam.symbolOf x
  .word (if wide then m.load (sym ++ "__wide".toList) else m.address sym)

def inputValue (fam : StencilFamily) (m : Machine S) (stack : S) (x : Ident) : Value :=
  .word (m.get stack (m.address (fam.symbolOf x)))

def callEnv (fam : StencilFamily) (v : List U16) (wide : WidthVariant) (m : Machine S)
    (regs : List Usize) (stack : S) : Env :=
  bindAll (bindAll (startEnv (paramNames fam v) regs) (holeIdents fam)
      ((holeIdents fam).map (holeValue fam wide m)))
    (inputNames fam v) ((inputNames fam v).map (inputValue fam m stack))

theorem startEnv_stackIdent (fam : StencilFamily) (v : List U16) (regs : List Usize) :
    startEnv (paramNames fam v) regs stackIdent = some .stack := by
  have hnot : stackIdent ∉ paramNames fam v := by
    intro h
    obtain ⟨r, -, hr⟩ := List.mem_map.1 h
    exact registerName_ne_stackIdent _ _ _ hr
  rw [startEnv, bindAll_of_notMem hnot, Function.update_self]

theorem callEnv_stackIdent : callEnv fam v wide m regs stack stackIdent = some .stack := by
  rw [callEnv, bindAll_of_notMem (stackIdent_notMem_inputNames fam v),
    bindAll_of_notMem (stackIdent_notMem_holeIdents fam), startEnv_stackIdent]

theorem callEnv_param (hregs : regs.length = fam.registers) {r : Nat} (hr : r < fam.registers) :
    callEnv fam v wide m regs stack (registerName fam.sig.inputs.toNat v r) =
      regs[r]?.map .word := by
  have hin : registerName fam.sig.inputs.toNat v r ∉ inputNames fam v := by
    intro h
    obtain ⟨n, hn⟩ := eq_stack_of_mem_inputNames h
    exact registerName_ne_stack _ _ _ _ hn
  have hhole : registerName fam.sig.inputs.toNat v r ∉ holeIdents fam := by
    intro h
    obtain ⟨k, -, hk⟩ := List.mem_map.1 h
    exact registerName_ne_hole _ _ _ _ hk.symm
  rw [callEnv, bindAll_of_notMem hin, bindAll_of_notMem hhole, startEnv,
    List.getElem?_eq_getElem (by omega), Option.map_some]
  apply bindAll_getElem (paramNames_nodup fam v) (i := r)
  · rw [paramNames, List.getElem?_map, List.getElem?_range hr]
    rfl
  · rw [List.getElem?_map, List.getElem?_eq_getElem (by omega)]
    rfl

theorem callEnv_hole {k : Nat} (hk : k < fam.sig.holeNames.length) :
    callEnv fam v wide m regs stack (numbered "hole" k) =
      some (holeValue fam wide m (numbered "hole" k)) := by
  have hin : numbered "hole" k ∉ inputNames fam v := by
    intro h
    obtain ⟨n, hn⟩ := eq_stack_of_mem_inputNames h
    exact stack_ne_hole n k hn.symm
  rw [callEnv, bindAll_of_notMem hin]
  exact bindAll_map_of_mem (List.mem_map_of_mem (List.mem_range.2 hk))

theorem callEnv_input {p : Nat} (hp : p ∈ stackPositions v 0 fam.sig.inputs.toNat) :
    callEnv fam v wide m regs stack (operand fam.sig.inputs.toNat v p) =
      some (inputValue fam m stack (operand fam.sig.inputs.toNat v p)) :=
  bindAll_map_of_mem (List.mem_map_of_mem hp)

theorem localNames_eq (fam : StencilFamily) (v : List U16) :
    fam.localNames v = stackIdent :: (paramNames fam v ++ holeIdents fam ++ inputNames fam v) := by
  have hin : (stackPositions v 0 fam.sig.inputs.toNat).map
      (fun p => numbered "stack" (stackBefore v p)) = inputNames fam v := by
    apply List.map_congr_left
    intro p hp
    exact (operand_stack (mem_stackPositions.1 hp).2).symm
  rw [localNames, hin]
  rfl

/-- The names that are bound at the call. -/
theorem isSome_callEnv_iff (hregs : regs.length = fam.registers) {x : Ident} :
    (callEnv fam v wide m regs stack x).isSome ↔ x ∈ fam.localNames v := by
  have hparams : (paramNames fam v).length = (regs.map Value.word).length := by
    rw [List.length_map, hregs, paramNames, List.length_map, List.length_range]
  rw [localNames_eq]
  constructor
  · intro h
    by_contra hnot
    simp only [List.mem_cons, List.mem_append, not_or] at hnot
    obtain ⟨hs, ⟨hp, hh⟩, hi⟩ := hnot
    rw [callEnv, bindAll_of_notMem hi, bindAll_of_notMem hh, startEnv, bindAll_of_notMem hp,
      Function.update_of_ne hs] at h
    cases h
  · intro h
    simp only [List.mem_cons, List.mem_append] at h
    rcases h with rfl | (hp | hh) | hi
    · rw [callEnv_stackIdent]
      rfl
    · exact isSome_bindAll (Or.inl (isSome_bindAll (Or.inl (isSome_bindAll (Or.inr ⟨hp, hparams⟩)))))
    · exact isSome_bindAll (Or.inl (isSome_bindAll (Or.inr ⟨hh, (List.length_map _).symm⟩)))
    · exact isSome_bindAll (Or.inr ⟨hi, (List.length_map _).symm⟩)

/-- The statements before the call. -/
theorem execAll_inits :
    execAll m ⟨startEnv (paramNames fam v) regs, stack, []⟩
        ((holeIdents fam).map (holeStmt fam wide) ++
          (inputNames fam v).map fun var => .letStackGet var (fam.symbolOf var)) =
      some ⟨callEnv fam v wide m regs stack, stack, []⟩ := by
  have hstart := startEnv_stackIdent fam v regs
  have hstack := stackIdent_notMem_holeIdents fam
  -- first the holes, then the operands on the stack; neither list contains the stack pointer
  have hholes : execAll m ⟨startEnv (paramNames fam v) regs, stack, []⟩
      ((holeIdents fam).map (holeStmt fam wide)) =
      some ⟨bindAll (startEnv (paramNames fam v) regs) (holeIdents fam)
        ((holeIdents fam).map (holeValue fam wide m)), stack, []⟩ := by
    apply execAll_lets m hstack hstart
    intro x _ c _ _
    cases wide with
    | false => simp [holeStmt, Stmt.exec, holeValue, WidthVariant.suffix]
    | true => simp [holeStmt, Stmt.exec, holeValue, WidthVariant.suffix]
  rw [execAll, List.foldlM_append]
  rw [execAll] at hholes
  rw [hholes]
  apply execAll_lets m (stackIdent_notMem_inputNames fam v)
  · exact (bindAll_of_notMem hstack).trans hstart
  · intro x _ c hc hs
    simp [Stmt.exec, hc, hs, inputValue]

/-! ### The call and what follows -/

/-- The arguments of the call, read from the environment. -/
theorem mapM_args (P : fam.Plain v output) (hregs : regs.length = fam.registers) :
    ∃ args, (fam.sig.callArgs.map (argName fam v)).mapM (callEnv fam v wide m regs stack) =
        some args ∧
      fam.sig.callArgs.mapM (fam.argument v wide m regs stack) = some args := by
  have hlen := P.located.length
  apply mapM_map_eq
  intro a ha
  cases a with
  | arg i =>
      have hi := P.sig.arg i ha
      obtain ⟨d, hd⟩ : ∃ d, v[i.toNat]? = some d := ⟨_, List.getElem?_eq_getElem (by omega)⟩
      simp only [argName, argument, hd, Option.bind_some]
      -- an operand on the stack was loaded into a name of its own, one in a register has its parameter
      by_cases h0 : d = 0
      · subst h0
        have hp : i.toNat ∈ stackPositions v 0 fam.sig.inputs.toNat :=
          mem_stackPositions.2 ⟨⟨Nat.zero_le _, by omega⟩, hd⟩
        rw [callEnv_input hp, if_pos rfl, inputValue, operand_stack hd]
        exact ⟨_, rfl, rfl⟩
      · have hr := P.register_lt hd h0
        rw [operand_register hd h0, callEnv_param hregs hr, if_neg h0,
          List.getElem?_eq_getElem (by omega)]
        exact ⟨_, rfl, rfl⟩
  | hole k =>
      rw [argName, callEnv_hole (P.sig.hole k ha)]
      exact ⟨_, rfl, rfl⟩
  | stack =>
      rw [argName, callEnv_stackIdent]
      exact ⟨_, rfl, rfl⟩
  | target i => exact absurd P.targetEnum (P.sig.target i ha)

/-- Binding the results of the call. -/
theorem bind_callPattern {xs : List Ident} {env : Env} {outs : List Usize} (hxs : xs.Nodup)
    (hlen : xs.length = outs.length) (houtput : output.outputs = some outs.length)
    (htuple : output ≠ .tuple 1) :
    (callPattern xs).bind env (output.value outs) = some (bindAll env xs (outs.map .word)) := by
  rcases xs with _ | ⟨x, _ | ⟨y, xs⟩⟩
  · cases output with
    | default | tuple elems => exact if_pos ⟨hxs, hlen⟩
    | path => exact absurd (Option.some.inj houtput) (by rw [← hlen]; decide)
    | unsupported => cases houtput
  · obtain ⟨out, rfl⟩ := List.length_eq_one_iff.1 hlen.symm
    cases output with
    | default => cases houtput
    | tuple elems => exact absurd (congrArg ReturnType.tuple (Option.some.inj houtput)) htuple
    | path => rfl
    | unsupported => cases houtput
  · cases output with
    | default | tuple elems => exact if_pos ⟨hxs, hlen⟩
    | path => exact absurd (Option.some.inj houtput) (by rw [← hlen]; simp)
    | unsupported => cases houtput

/-- The environment after the call. -/
def afterEnv (fam : StencilFamily) (v : List U16) (wide : WidthVariant) (m : Machine S)
    (regs : List Usize) (stack : S) (outs : List Usize) : Env :=
  bindAll (callEnv fam v wide m regs stack) (outputNames fam v) (outs.map .word)

variable {outs : List Usize}

/-- Each output is bound to its own name. -/
theorem afterEnv_output (P : fam.Plain v output) (houts : outs.length = fam.sig.outputs.toNat) {j : Nat}
    (hj : j < fam.sig.outputs.toNat) :
    evalWord (afterEnv fam v wide m regs stack outs)
      (operand fam.sig.inputs.toNat v (fam.sig.inputs.toNat + j)) = some (outs.getD j 0) := by
  have hget : outs[j]? = some (outs.getD j 0) := by
    rw [List.getD_eq_getElem?_getD, List.getElem?_eq_getElem (by omega)]
    rfl
  have hname : (outputNames fam v)[j]? =
      some (operand fam.sig.inputs.toNat v (fam.sig.inputs.toNat + j)) := by
    rw [outputNames, List.getElem?_map, List.getElem?_range' hj, Nat.one_mul]
    rfl
  have hword : (outs.map Value.word)[j]? = some (.word (outs.getD j 0)) := by
    rw [List.getElem?_map, hget]
    rfl
  have hbind : afterEnv fam v wide m regs stack outs
      (operand fam.sig.inputs.toNat v (fam.sig.inputs.toNat + j)) = some (.word (outs.getD j 0)) :=
    bindAll_getElem P.outputNames_nodup hname hword
  rw [evalWord, hbind]

/-- A name that no output has keeps its value. -/
theorem afterEnv_other {x : Ident} (hx : x ∉ outputNames fam v) :
    afterEnv fam v wide m regs stack outs x = callEnv fam v wide m regs stack x :=
  bindAll_of_notMem hx

/-- The value passed on in register `r`. -/
def nextRegister (fam : StencilFamily) (v : List U16) (regs outs : List Usize) (r : Nat) : Usize :=
  match lastAt (registerDigit r) 0 (v.drop fam.sig.inputs.toNat) with
  | some j => outs.getD j 0
  | none => regs.getD r 0

theorem registerDigit_ne_zero {r : Nat} (hr : r < 65535) : registerDigit r ≠ 0 := by
  intro h
  have hn := congrArg BitVec.toNat h
  rw [toNat_registerDigit hr] at hn
  cases hn

theorem evalWord_afterEnv (P : fam.Plain v output) (hregs : regs.length = fam.registers)
    (houts : outs.length = fam.sig.outputs.toNat) {r : Nat} (hr : r < fam.registers) :
    evalWord (afterEnv fam v wide m regs stack outs) (registerName fam.sig.inputs.toNat v r) =
      some (nextRegister fam v regs outs r) := by
  have hlen := P.located.length
  have hr' := registers_lt fam hr
  rw [nextRegister]
  cases hl : lastAt (registerDigit r) 0 (v.drop fam.sig.inputs.toNat) with
  | some j =>
      -- output `j` is in this register
      have hj := (getElem?_of_lastAt hl).2
      rw [Nat.sub_zero, List.getElem?_drop] at hj
      have hlt := (List.getElem?_eq_some_iff.1 hj).1
      have hname : operand fam.sig.inputs.toNat v _ = _ :=
        operand_register hj (registerDigit_ne_zero hr')
      rw [toNat_registerDigit hr', Nat.add_sub_cancel] at hname
      rw [← hname]
      exact P.afterEnv_output houts (by omega)
  | none =>
      have hnot : registerName fam.sig.inputs.toNat v r ∉ outputNames fam v := by
        intro h
        obtain ⟨p, hp, hpn⟩ := List.mem_map.1 h
        rw [List.mem_range'_1] at hp
        obtain ⟨d, hd⟩ : ∃ d, v[p]? = some d := ⟨_, List.getElem?_eq_getElem (by omega)⟩
        by_cases h0 : d = 0
        · subst h0
          rw [operand_stack hd] at hpn
          exact registerName_ne_stack _ _ _ _ hpn.symm
        · rw [operand_register hd h0] at hpn
          have hdr := registerName_inj (registers_lt fam (P.register_lt hd h0)) hr' hpn
          have hdn : d.toNat ≠ 0 := fun h => h0 (BitVec.eq_of_toNat_eq h)
          have hdigit : d = registerDigit r := by
            apply BitVec.eq_of_toNat_eq
            rw [toNat_registerDigit hr']
            omega
          apply lastAt_eq_none_iff.1 hl
          apply List.mem_of_getElem? (i := p - fam.sig.inputs.toNat)
          rw [List.getElem?_drop, Nat.add_sub_cancel' hp.1, hd, hdigit]
      rw [evalWord, afterEnv_other hnot, callEnv_param hregs hr, List.getD_eq_getElem?_getD,
        List.getElem?_eq_getElem (by omega)]
      rfl

/-- The registers passed on are the ones the transfer promises. -/
theorem passes_nextRegister (P : fam.Plain v output) (hregs : regs.length = fam.registers)
    (houts : outs.length = fam.sig.outputs.toNat) :
    fam.Passes v regs outs ((List.range fam.registers).map (nextRegister fam v regs outs)) := by
  have hlen := P.located.length
  constructor
  · simp
  · intro j d hj h0
    have hr := P.register_lt hj h0
    have hr' := registers_lt fam hr
    have hdn : d.toNat ≠ 0 := fun h => h0 (BitVec.eq_of_toNat_eq h)
    have hdigit : d = registerDigit (d.toNat - 1) := by
      apply BitVec.eq_of_toNat_eq
      rw [toNat_registerDigit hr']
      omega
    have hjlt := (List.getElem?_eq_some_iff.1 hj).1
    rw [List.getElem?_map, List.getElem?_range hr, Option.map_some, nextRegister]
    cases hl : lastAt (registerDigit (d.toNat - 1)) 0 (v.drop fam.sig.inputs.toNat) with
    | none =>
        exfalso
        apply lastAt_eq_none_iff.1 hl
        rw [← hdigit]
        apply List.mem_of_getElem? (i := j)
        rw [List.getElem?_drop, hj]
    | some k =>
        have hk := (getElem?_of_lastAt hl).2
        rw [Nat.sub_zero, List.getElem?_drop, ← hdigit] at hk
        -- only one output is in the register
        obtain rfl : j = k := by
          rcases Nat.lt_trichotomy j k with hlt | rfl | hlt
          · exact absurd (P.located.distinct _ _ d (Nat.le_add_right _ j) (by omega) hj hk) h0
          · rfl
          · exact absurd (P.located.distinct _ _ d (Nat.le_add_right _ k) (by omega) hk hj) h0
        change some (outs.getD j 0) = outs[j]?
        rw [List.getD_eq_getElem?_getD, List.getElem?_eq_getElem (by omega)]
        rfl
  · intro r hr hnot
    rw [List.getElem?_map, List.getElem?_range hr, Option.map_some, nextRegister,
      lastAt_eq_none_iff.2 hnot]
    rw [List.getD_eq_getElem?_getD, List.getElem?_eq_getElem (by omega)]
    rfl

/-- A call whose function is visible. -/
theorem exec_letCall {rets : Pattern} {name : Ident} {xs : List Ident} {args : List Value}
    {c : Config S} {env : Env} (hvisible : (c.env name).isSome = false)
    (hargs : xs.mapM c.env = some args)
    (hbind : rets.bind c.env (m.fn args c.stack).1 = some env) :
    (Stmt.letCall rets name xs).exec m c =
      some ⟨env, (m.fn args c.stack).2, c.events ++ [.call args]⟩ := by
  simp only [Stmt.exec, hvisible, Bool.false_eq_true, if_false, hargs, Option.bind_eq_bind,
    Option.bind_some, hbind, Option.pure_def]

/-- **The run of the wrapper**, when its function is visible and its result can be bound. -/
theorem run_eq (P : fam.Plain v output) (hname : fam.name ∉ fam.localNames v)
    (htuple : output ≠ .tuple 1) {w : Wrapper}
    (hparams : w.params = paramNames fam v) (hstmts : w.stmts = stmts fam v wide)
    (htail : w.tail = .becomeNext (paramNames fam v))
    (fn : List Value → S → Vector Usize fam.sig.outputs.toNat × S)
    (hregs : regs.length = fam.registers) :
    ∃ args final, fam.sig.callArgs.mapM (fam.argument v wide m regs stack) = some args ∧
      w.run (m.calling output fn) regs stack =
        some ⟨.call args :: fam.stackSets v (fn args stack).1.toList, final,
          .become "copy_and_patch_next".toList ((List.range fam.registers).map
            (nextRegister fam v regs (fn args stack).1.toList))⟩ := by
  obtain ⟨args, hargs, harg⟩ := @mapM_args S fam v output wide m regs stack P hregs
  have hargs' : (fam.sig.callArgs.map (argName fam v)).mapM
      (callEnv fam v wide (m.calling output fn) regs stack) = some args := hargs
  have houts : (fn args stack).1.toList.length = fam.sig.outputs.toNat := Vector.length_toList
  have hvisible : (callEnv fam v wide (m.calling output fn) regs stack fam.name).isSome = false := by
    rw [Bool.eq_false_iff, Ne, isSome_callEnv_iff hregs]
    exact hname
  have hlen : (outputNames fam v).length = (fn args stack).1.toList.length := by
    rw [houts, outputNames, List.length_map, List.length_range']
  -- the call
  have hcall : (Stmt.letCall (callPattern (outputNames fam v)) fam.name
      (fam.sig.callArgs.map (argName fam v))).exec (m.calling output fn)
        ⟨callEnv fam v wide (m.calling output fn) regs stack, stack, []⟩ =
      some ⟨afterEnv fam v wide (m.calling output fn) regs stack (fn args stack).1.toList,
        (fn args stack).2, [.call args]⟩ := by
    have hbind := @bind_callPattern output (outputNames fam v)
      (callEnv fam v wide (m.calling output fn) regs stack) (fn args stack).1.toList
      P.outputNames_nodup hlen (by rw [houts]; exact P.outputs) htuple
    exact exec_letCall hvisible hargs' hbind
  -- the outputs on the stack
  have hafter : afterEnv fam v wide (m.calling output fn) regs stack (fn args stack).1.toList stackIdent =
      some .stack :=
    (afterEnv_other (stackIdent_notMem_outputNames fam v)).trans callEnv_stackIdent
  obtain ⟨final, hsets⟩ := @execAll_sets S (m.calling output fn)
    (stackPositions v fam.sig.inputs.toNat fam.sig.outputs.toNat)
    (operand fam.sig.inputs.toNat v) (fun p => fam.symbolOf (operand fam.sig.inputs.toNat v p))
    (fun p => (fn args stack).1.toList.getD (p - fam.sig.inputs.toNat) 0)
    ⟨afterEnv fam v wide (m.calling output fn) regs stack (fn args stack).1.toList, (fn args stack).2,
      [.call args]⟩ hafter (by
        intro p hp
        obtain ⟨⟨hle, hlt⟩, -⟩ := mem_stackPositions.1 hp
        have hout := @afterEnv_output S fam v output wide (m.calling output fn) regs stack _ P houts
          (p - fam.sig.inputs.toNat) (by omega)
        rwa [Nat.add_sub_cancel' hle] at hout)
  have hevents : (stackPositions v fam.sig.inputs.toNat fam.sig.outputs.toNat).map (fun p =>
      Event.set (fam.symbolOf (operand fam.sig.inputs.toNat v p))
        ((fn args stack).1.toList.getD (p - fam.sig.inputs.toNat) 0)) =
      fam.stackSets v (fn args stack).1.toList := by
    apply List.map_congr_left
    intro p hp
    rw [operand_stack (mem_stackPositions.1 hp).2]
  -- the registers passed on
  have hnext : (paramNames fam v).mapM (evalWord
      (afterEnv fam v wide (m.calling output fn) regs stack (fn args stack).1.toList)) =
      some ((List.range fam.registers).map (nextRegister fam v regs (fn args stack).1.toList)) := by
    rw [paramNames, List.mapM_map]
    apply mapM_eq_map
    intro r hr
    exact P.evalWord_afterEnv hregs houts (List.mem_range.1 hr)
  have hlocal : stackIdent ∉ paramNames fam v := by
    intro h
    obtain ⟨r, -, hr⟩ := List.mem_map.1 h
    exact registerName_ne_stackIdent _ _ _ hr
  have hplen : (paramNames fam v).length = regs.length := by
    rw [hregs, paramNames, List.length_map, List.length_range]
  have hinits := @execAll_inits S fam v wide (m.calling output fn) regs stack
  refine ⟨args, final, harg, ?_⟩
  rw [Wrapper.run, hparams, hstmts, htail, if_pos ⟨paramNames_nodup fam v, hlocal, hplen⟩, stmts,
    execAll, List.foldlM_append, List.foldlM_append]
  rw [execAll] at hinits hsets
  rw [hinits]
  simp only [Option.bind_eq_bind, Option.bind_some, List.foldlM_cons, List.foldlM_nil, hcall,
    Option.pure_def, hsets, Tail.eval, hnext, Option.map_some, hevents, List.singleton_append]

/-- A wrapper whose function is hidden does not run. -/
theorem run_eq_none (hname : fam.name ∈ fam.localNames v) {w : Wrapper}
    (hparams : w.params = paramNames fam v) (hstmts : w.stmts = stmts fam v wide)
    (hregs : regs.length = fam.registers) : w.run m regs stack = none := by
  have hinits := @execAll_inits S fam v wide m regs stack
  have hbound : (callEnv fam v wide m regs stack fam.name).isSome = true :=
    (isSome_callEnv_iff hregs).2 hname
  have hcall : (Stmt.letCall (callPattern (outputNames fam v)) fam.name
      (fam.sig.callArgs.map (argName fam v))).exec m
        ⟨callEnv fam v wide m regs stack, stack, []⟩ = none := by
    simp only [Stmt.exec, hbound, if_true]
  rw [Wrapper.run, hparams, hstmts]
  split
  · rw [stmts, execAll, List.foldlM_append, List.foldlM_append]
    rw [execAll] at hinits
    rw [hinits]
    simp only [Option.bind_eq_bind, Option.bind_some, List.foldlM_cons, hcall, Option.bind_none]
  · rfl

/-- A wrapper that binds a tuple of one to the name of its output does not run: the name is read as a
word, by `stack.set` or for the next stencil. -/
theorem run_eq_none_of_tuple (P : fam.Plain v (.tuple 1)) {w : Wrapper}
    (hparams : w.params = paramNames fam v) (hstmts : w.stmts = stmts fam v wide)
    (htail : w.tail = .becomeNext (paramNames fam v))
    (fn : List Value → S → Vector Usize fam.sig.outputs.toNat × S)
    (hregs : regs.length = fam.registers) :
    w.run (m.calling (.tuple 1) fn) regs stack = none := by
  by_cases hname : fam.name ∈ fam.localNames v
  · exact run_eq_none hname hparams hstmts hregs
  have hone : fam.sig.outputs.toNat = 1 := (Option.some.inj P.outputs).symm
  have hlen := P.located.length
  obtain ⟨args, hargs, -⟩ := @mapM_args S fam v (.tuple 1) wide (m.calling (.tuple 1) fn) regs stack P hregs
  have hvisible : (callEnv fam v wide (m.calling (.tuple 1) fn) regs stack fam.name).isSome = false := by
    rw [Bool.eq_false_iff, Ne, isSome_callEnv_iff hregs]
    exact hname
  obtain ⟨x, hx⟩ : ∃ x, x = operand fam.sig.inputs.toNat v fam.sig.inputs.toNat := ⟨_, rfl⟩
  have hnames : outputNames fam v = [x] := by rw [outputNames, hone, hx]; rfl
  obtain ⟨env, henv⟩ : ∃ env : Env, env = Function.update
      (callEnv fam v wide (m.calling (.tuple 1) fn) regs stack) x
        (some (.tuple (fn args stack).1.toList)) := ⟨_, rfl⟩
  have hcall : (Stmt.letCall (callPattern (outputNames fam v)) fam.name
      (fam.sig.callArgs.map (argName fam v))).exec (m.calling (.tuple 1) fn)
        ⟨callEnv fam v wide (m.calling (.tuple 1) fn) regs stack, stack, []⟩ =
      some ⟨env, (fn args stack).2, [.call args]⟩ := by
    apply exec_letCall hvisible hargs
    rw [hnames, henv]
    rfl
  have hword : evalWord env x = none := by rw [evalWord, henv, Function.update_self]
  have hinits := @execAll_inits S fam v wide (m.calling (.tuple 1) fn) regs stack
  rw [execAll] at hinits
  rw [Wrapper.run, hparams, hstmts, htail]
  split
  · rw [stmts, execAll, List.foldlM_append, List.foldlM_append, hinits]
    simp only [Option.bind_eq_bind, Option.bind_some, List.foldlM_cons, List.foldlM_nil, hcall,
      Option.pure_def]
    obtain ⟨d, hd⟩ : ∃ d, v[fam.sig.inputs.toNat]? = some d := ⟨_, List.getElem?_eq_getElem (by omega)⟩
    by_cases h0 : d = 0
    · -- the output is stored on the stack
      have hpositions : stackPositions v fam.sig.inputs.toNat fam.sig.outputs.toNat =
          [fam.sig.inputs.toNat] := by
        rw [hone, stackPositions, List.range'_one, List.filter_cons_of_pos (by rw [hd, h0]; rfl),
          List.filter_nil]
      rw [hpositions, List.map_singleton, ← hx, List.foldlM_cons]
      simp [Stmt.exec, hword]
    · -- the output is passed on in its register
      have hpositions : stackPositions v fam.sig.inputs.toNat fam.sig.outputs.toNat = [] := by
        rw [hone, stackPositions, List.range'_one, List.filter_cons_of_neg, List.filter_nil]
        rw [hd, decide_eq_true_eq, Option.some_inj]
        exact h0
      have hparam : x ∈ paramNames fam v := by
        rw [hx, operand_register hd h0]
        exact List.mem_map_of_mem (List.mem_range.2 (P.register_lt hd h0))
      have hnone : (paramNames fam v).mapM (evalWord env) = none := by
        cases hmap : (paramNames fam v).mapM (evalWord env) with
        | none => rfl
        | some words =>
            obtain ⟨word, -, hsome⟩ := result_of_mapM hmap hparam
            rw [hword] at hsome
            cases hsome
      rw [hpositions]
      simp [Tail.eval, hnone]
  · rfl

end Run

end Plain

/-- A wrapper that transfers its registers runs on some machine. -/
theorem Transfers.runs {fam : StencilFamily} {v : List U16} {wide : WidthVariant} {output : ReturnType}
    {w : Wrapper} (T : fam.Transfers v wide output w) :
    ∃ (m : Machine Unit) (fn : List Value → Unit → Vector Usize fam.sig.outputs.toNat × Unit)
      (regs : Vector Usize fam.registers), w.run (m.calling output fn) regs.toList () ≠ none := by
  obtain ⟨args, final, next, -, hrun, -⟩ := T.run Unit
    ⟨fun _ _ => 0, fun _ _ _ => (), fun _ => 0, fun _ => 0, fun _ s => (.stack, s)⟩
    (fun _ s => (Vector.replicate _ 0, s)) (Vector.replicate _ 0) ()
  refine ⟨⟨fun _ _ => 0, fun _ _ _ => (), fun _ => 0, fun _ => 0, fun _ s => (.stack, s)⟩,
    fun _ s => (Vector.replicate _ 0, s), Vector.replicate _ 0, ?_⟩
  rw [hrun]
  simp

/-- The wrapper of a plain stencil transfers its registers exactly when its symbol is an identifier, its
function is visible and what it returns can be bound. -/
theorem Plain.exact_iff {fam : StencilFamily} {v : List U16} {output : ReturnType}
    (P : fam.Plain v output) (wide : WidthVariant) :
    (∃ w, fam.generateStencil v wide = some w ∧ fam.Transfers v wide output w) ↔
      '#' ∉ fam.name ∧ output ≠ .tuple 1 ∧ fam.name ∉ fam.localNames v := by
  by_cases hraw : '#' ∈ fam.name
  · have hnone : fam.generateStencil v wide = none := by
      rw [generateStencil, identNew_stencilSymbol, if_pos hraw]
      rfl
    rw [hnone]
    exact iff_of_false (by simp) fun h => h.1 hraw
  obtain ⟨w, hw, hparams, hstmts, htail⟩ := P.generateStencil_eq hraw wide
  rw [and_iff_right hraw]
  constructor
  · rintro ⟨w', hw', T⟩
    obtain rfl := Option.some.inj (hw.symm.trans hw')
    obtain ⟨m, fn, regs, hruns⟩ := T.runs
    constructor
    · rintro rfl
      exact hruns (P.run_eq_none_of_tuple hparams hstmts htail fn Vector.length_toList)
    · intro hname
      exact hruns (Plain.run_eq_none hname hparams hstmts Vector.length_toList)
  · rintro ⟨htuple, hname⟩
    refine ⟨w, hw, ?_, ?_, ?_⟩
    · rw [hparams]
      exact Plain.paramNames_nodup fam v
    · intro x hx n
      rw [hparams] at hx
      obtain ⟨r, -, rfl⟩ := List.mem_map.1 hx
      exact ⟨registerName_ne_stack _ _ _ _, registerName_ne_hole _ _ _ _⟩
    · intro S m fn regs stack
      have hregs : regs.toList.length = fam.registers := Vector.length_toList
      obtain ⟨args, final, harg, hrun⟩ :=
        @Plain.run_eq S fam v output wide m regs.toList stack P hname htuple w hparams hstmts htail fn hregs
      exact ⟨args, final, _, harg, hrun,
        P.passes_nextRegister hregs Vector.length_toList⟩

section

variable {ident : Ident} {args : List FnArg} {output : ReturnType} {fam : StencilFamily}
  {fuel : Nat} {vectors : List (List U16)} {v : List U16}

theorem plain_of_mem (hparse : FnSignature.parse ident args output = some (.ok fam.sig))
    (hreturns : fam.options.returns = false) (htrampoline : fam.options.trampoline = false)
    (htarget : fam.sig.targetEnum = none)
    (hvectors : (RegPermutation.new fam.sig.inputs fam.sig.outputs
      fam.options.getRegisters).bind (RegPermutation.collect fuel) = some vectors)
    (hv : v ∈ vectors) : fam.Plain v output := by
  rw [RegPermutation.eq_locations hvectors] at hv
  exact ⟨FnSignature.valid_of_parse hparse, FnSignature.outputs_of_parse hparse htarget, hreturns,
    htrampoline, htarget, RegPermutation.mem_locations.1 hv⟩

/-- **A wrapper is an exact register transfer** exactly when the user's function is not named like a
variable of the wrapper, its name is no raw identifier, and it does not return a tuple of one. -/
theorem transfers_iff (hparse : FnSignature.parse ident args output = some (.ok fam.sig))
    (hreturns : fam.options.returns = false) (htrampoline : fam.options.trampoline = false)
    (htarget : fam.sig.targetEnum = none)
    (hvectors : (RegPermutation.new fam.sig.inputs fam.sig.outputs
      fam.options.getRegisters).bind (RegPermutation.collect fuel) = some vectors)
    (hv : v ∈ vectors) (wide : WidthVariant) :
    (∃ w, fam.generateStencil v wide = some w ∧ fam.Transfers v wide output w) ↔
      '#' ∉ fam.name ∧ output ≠ .tuple 1 ∧ fam.name ∉ fam.localNames v :=
  (plain_of_mem hparse hreturns htrampoline htarget hvectors hv).exact_iff wide

end

/-- `fn name(x: _) -> _` over two registers. -/
def unary (name : Ident) : StencilFamily :=
  ⟨name, ⟨false, none, false, 2⟩, ⟨[.arg 0], 1, 1, [], none, []⟩, []⟩

theorem parse_unary (name : Ident) :
    FnSignature.parse name [.typed [] (some "x".toList)] .path = some (.ok (unary name).sig) := rfl

theorem collect_unary (name : Ident) :
    (RegPermutation.new (unary name).sig.inputs (unary name).sig.outputs
      (unary name).options.getRegisters).bind (RegPermutation.collect 5) =
      some [[0, 0], [0, 1], [1, 0], [1, 1]] := by
  change (RegPermutation.new 1 1 ⟨2, by decide⟩).bind (RegPermutation.collect 5) = _
  decide +kernel

/-- The wrapper of `add1` for an operand and a result on the stack. -/
theorem transfers_iff_add1 :
    (∃ w, (unary "add1".toList).generateStencil [0, 0] false = some w ∧
      (unary "add1".toList).Transfers [0, 0] false .path w) ↔
      '#' ∉ "add1".toList ∧ ReturnType.path ≠ .tuple 1 ∧
        "add1".toList ∉ (unary "add1".toList).localNames [0, 0] :=
  transfers_iff (parse_unary _) rfl rfl rfl (collect_unary _) (by decide) false

/-- In the wrapper of a function `stack0`, the call `stack0(stack0.into())` finds the operand. -/
theorem not_transfers :
    ¬ ∀ (ident : Ident) (args : List FnArg) (output : ReturnType) (fam : StencilFamily)
      (fuel : Nat) (vectors : List (List U16)) (v : List U16) (wide : WidthVariant),
      FnSignature.parse ident args output = some (.ok fam.sig) → fam.options.returns = false →
      fam.options.trampoline = false → fam.sig.targetEnum = none →
      (RegPermutation.new fam.sig.inputs fam.sig.outputs
        fam.options.getRegisters).bind (RegPermutation.collect fuel) = some vectors →
      v ∈ vectors →
      ∃ w, fam.generateStencil v wide = some w ∧ fam.Transfers v wide output w := by
  intro h
  have hparse := parse_unary "stack0".toList
  have hvectors := collect_unary "stack0".toList
  have hv : [(0 : U16), 0] ∈ [[(0 : U16), 0], [0, 1], [1, 0], [1, 1]] := by decide
  have hexact := h _ _ _ _ 5 _ [0, 0] false hparse rfl rfl rfl hvectors hv
  have P := plain_of_mem hparse rfl rfl rfl hvectors hv
  exact ((P.exact_iff false).1 hexact).2.2 (by decide +kernel)

end StencilFamily

end Patchouly.Macros
