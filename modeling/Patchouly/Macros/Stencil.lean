import Patchouly.Lib.Text
import Patchouly.Macros.Perm

/-!
# The stencil macro (`patchouly-macros`, `stencil.rs`)

`FnSignature::parse` reads the user's function, and `generateStencil` emits one wrapper function for
one vector of operand locations. An identifier is its list of characters. The wrapper is kept as data:
its symbol, its register parameters, the declarations of its `imp` module, its statements and its
tail.

Of the user's function only the parts that the macro looks at are kept: the attributes and the pattern
of each parameter, the form of the return type, and the text of the signature. `none` is a panic of
the macro.
-/

set_option autoImplicit false

namespace Patchouly.Macros

open Patchouly.Lib

abbrev Ident := List Char

instance : LawfulBEq Ident := inferInstance

/-- `format!("{stem}{n}")`. -/
def numbered (stem : String) (n : Nat) : Ident := stem.toList ++ decimal n

/-- `syn::Ident::new` panics on a text that is no identifier. The texts of the macro are made of numbers
and the name of the user's function; that of a raw identifier, `r#name`, must not stand inside a text. -/
def identNew (text : Ident) : Option Ident := if '#' ∈ text then none else some text

structure FamilyOptions where
  returns : Bool
  abi : Option Ident
  trampoline : Bool
  registers : U16

namespace FamilyOptions

def DEFAULT_REGISTERS : NonZeroU16 := ⟨10, by decide⟩

def getRegisters (self : FamilyOptions) : NonZeroU16 :=
  if h : self.registers ≠ 0 then ⟨self.registers, h⟩ else DEFAULT_REGISTERS

def getAbi (self : FamilyOptions) : Ident := self.abi.getD "rust-preserve-none".toList

end FamilyOptions

def BUILTIN_FUNCTIONS : List Ident :=
  ["__empty".toList, "__move".toList, "__long_jump".toList]

/-- `StencilFamily::parse`'s check of the function name. -/
def acceptsName (name : Ident) : Bool :=
  !((find "__".toList name).isSome && !BUILTIN_FUNCTIONS.contains name)

/-! ## The user's function -/

inductive ParamAttr where
  | hole
  | stack
  | target
  | other
  deriving DecidableEq

/-- `pat` is the parameter's name when its pattern is an identifier. -/
inductive FnArg where
  | receiver
  | typed (attrs : List ParamAttr) (pat : Option Ident)

inductive ReturnType where
  | default
  | tuple (elems : Nat)
  | path
  | unsupported

inductive Kind where
  | hole
  | arg
  | stack
  | target

/-- The first attribute of the macro decides. -/
def kindOf : List ParamAttr → Kind
  | [] => .arg
  | .hole :: _ => .hole
  | .stack :: _ => .stack
  | .target :: _ => .target
  | .other :: attrs => kindOf attrs

inductive CallArg where
  | arg (i : U16)
  | hole (i : U16)
  | stack
  | target (i : U16)
  deriving DecidableEq

structure FnSignature where
  callArgs : List CallArg
  inputs : U16
  outputs : U16
  holeNames : List Ident
  targetEnum : Option Ident
  targetNames : List Ident

/-- The state of `FnSignature::parse`'s loop over the parameters. -/
structure ParsedArgs where
  callArgs : List CallArg := []
  inputs : Nat := 0
  holeNames : List Ident := []
  targetEnum : Option Ident := none
  targetNames : List Ident := []

namespace ParsedArgs

def push (ident : Ident) (self : ParsedArgs) : FnArg → Except String ParsedArgs
  | .receiver => .error "expected type"
  | .typed attrs pat =>
      match kindOf attrs with
      | .hole =>
          let holeI := self.holeNames.length
          .ok { self with
            holeNames := self.holeNames ++ [numbered "hole" holeI]
            callArgs := self.callArgs ++ [.hole (BitVec.ofNat 16 holeI)] }
      | .arg =>
          .ok { self with
            inputs := self.inputs + 1
            callArgs := self.callArgs ++ [.arg (BitVec.ofNat 16 self.inputs)] }
      | .stack => .ok { self with callArgs := self.callArgs ++ [.stack] }
      | .target =>
          let targetI := self.targetNames.length
          match pat with
          | none => .error "expected name"
          | some name =>
              .ok { self with
                targetEnum := some (self.targetEnum.getD (ident ++ "__targets".toList))
                targetNames := self.targetNames ++ [numbered "target" targetI ++ '_' :: name]
                callArgs := self.callArgs ++ [.target (BitVec.ofNat 16 targetI)] }

/-- What the loop keeps: the call arguments refer to the inputs and holes counted so far, and only
targets need a target enum. -/
structure Valid (p : ParsedArgs) : Prop where
  arg : ∀ i, CallArg.arg i ∈ p.callArgs → i.toNat < p.inputs
  hole : ∀ i, CallArg.hole i ∈ p.callArgs → i.toNat < p.holeNames.length
  target : ∀ i, CallArg.target i ∈ p.callArgs → p.targetEnum ≠ none
  holeNames : p.holeNames = (List.range p.holeNames.length).map (numbered "hole")

theorem valid_empty : Valid {} := ⟨by simp, by simp, by simp, rfl⟩

theorem valid_push {ident : Ident} {self self' : ParsedArgs} {arg : FnArg} (hv : self.Valid)
    (h : self.push ident arg = .ok self') : self'.Valid := by
  have hmod : ∀ n : Nat, (BitVec.ofNat 16 n).toNat < n + 1 := by
    intro n
    exact Nat.lt_succ_of_le (Nat.mod_le n _)
  -- one case for each kind of parameter; only the fields of its kind change
  cases arg with
  | receiver => cases h
  | typed attrs pat =>
      cases hk : kindOf attrs with
      | hole =>
          simp only [ParsedArgs.push, hk] at h
          obtain rfl := Except.ok.inj h
          refine ⟨?_, ?_, ?_, ?_⟩
          · simpa using hv.arg
          · intro i hi
            simp only [List.mem_append, List.mem_singleton, CallArg.hole.injEq] at hi
            rw [List.length_append]
            rcases hi with hi | rfl
            · exact Nat.lt_succ_of_lt (hv.hole i hi)
            · exact hmod _
          · simpa using hv.target
          · rw [List.length_append, List.length_singleton, List.range_succ, List.map_append,
              ← hv.holeNames]
            rfl
      | arg =>
          simp only [ParsedArgs.push, hk] at h
          obtain rfl := Except.ok.inj h
          refine ⟨?_, by simpa using hv.hole, by simpa using hv.target, hv.holeNames⟩
          intro i hi
          simp only [List.mem_append, List.mem_singleton, CallArg.arg.injEq] at hi
          rcases hi with hi | rfl
          · exact Nat.lt_succ_of_lt (hv.arg i hi)
          · exact hmod _
      | stack =>
          simp only [ParsedArgs.push, hk] at h
          obtain rfl := Except.ok.inj h
          exact ⟨by simpa using hv.arg, by simpa using hv.hole, by simpa using hv.target,
            hv.holeNames⟩
      | target =>
          cases pat with
          | none => simp [ParsedArgs.push, hk] at h
          | some name =>
              simp only [ParsedArgs.push, hk] at h
              obtain rfl := Except.ok.inj h
              exact ⟨by simpa using hv.arg, by simpa using hv.hole, by simp, hv.holeNames⟩

theorem valid_foldlM {ident : Ident} {args : List FnArg} {self self' : ParsedArgs}
    (hv : self.Valid) (h : args.foldlM (push ident) self = .ok self') : self'.Valid := by
  induction args generalizing self with
  | nil =>
      obtain rfl : self = self' := Except.ok.inj h
      exact hv
  | cons arg args ih =>
      rw [List.foldlM_cons] at h
      cases hp : push ident self arg with
      | error e => rw [hp] at h; cases h
      | ok mid =>
          rw [hp] at h
          exact ih (valid_push hv hp) h

end ParsedArgs

/-- The number of outputs of a return type; any other form is a `todo!`. -/
def ReturnType.outputs : ReturnType → Option Nat
  | .default => some 0
  | .tuple elems => some elems
  | .path => some 1
  | .unsupported => none

namespace FnSignature

def parse (ident : Ident) (args : List FnArg) (output : ReturnType) :
    Option (Except String FnSignature) :=
  match args.foldlM (ParsedArgs.push ident) {} with
  | .error e => some (.error e)
  | .ok p => do
      let outputs ← (if p.targetEnum.isSome then some 0 else output.outputs : Option Nat)
      if p.inputs + p.holeNames.length + outputs + 1 > 65535 then
        return .error "too many arguments"
      else
        return .ok ⟨p.callArgs, BitVec.ofNat 16 p.inputs, BitVec.ofNat 16 outputs, p.holeNames,
          p.targetEnum, p.targetNames⟩

/-- What `parse` promises about a signature it returns. -/
structure Valid (sig : FnSignature) : Prop where
  bound : sig.inputs.toNat + sig.holeNames.length + sig.outputs.toNat + 1 ≤ 65535
  arg : ∀ i, CallArg.arg i ∈ sig.callArgs → i.toNat < sig.inputs.toNat
  hole : ∀ i, CallArg.hole i ∈ sig.callArgs → i.toNat < sig.holeNames.length
  target : ∀ i, CallArg.target i ∈ sig.callArgs → sig.targetEnum ≠ none
  holeNames : sig.holeNames = (List.range sig.holeNames.length).map (numbered "hole")

theorem valid_of_parse {ident : Ident} {args : List FnArg} {output : ReturnType}
    {sig : FnSignature} (h : parse ident args output = some (.ok sig)) : sig.Valid := by
  rw [parse] at h
  split at h
  · cases h
  · next p hp =>
    have hv := ParsedArgs.valid_foldlM ParsedArgs.valid_empty hp
    obtain ⟨outputs, -, h⟩ := Option.bind_eq_some_iff.1 h
    split at h
    · cases h
    · next hle =>
      obtain rfl := Except.ok.inj (Option.some.inj h)
      have hin : (BitVec.ofNat 16 p.inputs).toNat = p.inputs := Nat.mod_eq_of_lt (by omega)
      have hout : (BitVec.ofNat 16 outputs).toNat = outputs := Nat.mod_eq_of_lt (by omega)
      refine ⟨by simp only [hin, hout]; omega, ?_, hv.hole, hv.target, hv.holeNames⟩
      intro i hi
      simpa only [hin] using hv.arg i hi

/-- Without targets the outputs are those of the return type. -/
theorem outputs_of_parse {ident : Ident} {args : List FnArg} {output : ReturnType}
    {sig : FnSignature} (h : parse ident args output = some (.ok sig)) (htarget : sig.targetEnum = none) :
    output.outputs = some sig.outputs.toNat := by
  rw [parse] at h
  split at h
  · cases h
  · next p hp =>
    obtain ⟨outputs, houtputs, h⟩ := Option.bind_eq_some_iff.1 h
    split at h
    · cases h
    · next hle =>
      obtain rfl := Except.ok.inj (Option.some.inj h)
      have hnone : p.targetEnum.isSome = false := by
        rw [show p.targetEnum = none from htarget]
        rfl
      rw [hnone, if_neg (by simp)] at houtputs
      rw [houtputs]
      exact congrArg some (Nat.mod_eq_of_lt (by omega)).symm

end FnSignature

/-! ## The signature of one wrapper -/

inductive WrapperCallArg where
  | reg (i : U16)
  | stack (i : U16)
  deriving DecidableEq

/-- `StencilSignature::new`'s closure over the locations; `names` are the stack names so far. -/
def locate : List Ident → List U16 → List WrapperCallArg × List Ident
  | names, [] => ([], names)
  | names, i :: is =>
      if i = 0 then
        let index := names.length
        let (locations, names) := locate (names ++ [numbered "stack" index]) is
        (.stack (BitVec.ofNat 16 index) :: locations, names)
      else
        let (locations, names) := locate names is
        (.reg (i - 1) :: locations, names)

inductive Register where
  | pass (i : U16)
  | var (i : U16)
  deriving DecidableEq

abbrev Regs := List Register

namespace Regs

def allPass (len : U16) : Regs :=
  (List.range len.toNat).map fun i => .pass (BitVec.ofNat 16 (i + 1))

/-- `from_args`'s loop from operand `i` on. -/
def assign : Nat → List WrapperCallArg → Regs → Option Regs
  | _, [], regs => some regs
  | i, .reg reg :: perm, regs =>
      if reg.toNat < regs.length then
        assign (i + 1) perm (regs.set reg.toNat (.var (BitVec.ofNat 16 i)))
      else none
  | i, .stack _ :: perm, regs => assign (i + 1) perm regs

def fromArgs (perm : List WrapperCallArg) (regs : U16) : Option Regs :=
  assign 0 perm (allPass regs)

end Regs

/-- The name of a register parameter, from its use by the inputs and by the outputs. -/
def regName : Register → Register → Ident
  | .pass i, .pass _ => numbered "pass" i.toNat
  | .var i, .pass _ => numbered "in" i.toNat
  | .pass _, .var j => numbered "out" j.toNat
  | .var i, .var j => numbered "in" i.toNat ++ numbered "_out" j.toNat

structure StencilSignature where
  inputsNum : Nat
  regNames : List Ident
  stackArgNames : List Ident
  ioLocations : List WrapperCallArg

def StencilSignature.new (inputsNum : Nat) (ioLocations : List U16) (maxRegs : U16) :
    Option StencilSignature :=
  let (locations, names) := locate [] ioLocations
  if inputsNum ≤ locations.length then do
    let inRegs ← Regs.fromArgs (locations.take inputsNum) maxRegs
    let outRegs ← Regs.fromArgs (locations.drop inputsNum) maxRegs
    return ⟨inputsNum, List.zipWith regName inRegs outRegs, names, locations⟩
  else none

/-! ## Generated code -/

/-- `WidthVariant`: whether the holes are read from a full word. -/
abbrev WidthVariant := Bool

def WidthVariant.suffix (self : WidthVariant) : Ident := if self then "__wide".toList else []

inductive ImpDecl where
  /-- `pub static sym: [u8; 0x10000];` -/
  | array (sym : Ident)
  /-- `pub static sym: usize;` -/
  | word (sym : Ident)
  /-- `pub fn sym(stack: &mut super::Stack, params..);` -/
  | fn (sym : Ident) (params : List Ident)
  deriving DecidableEq

inductive Pattern where
  | ident (x : Ident)
  | tuple (xs : List Ident)
  deriving DecidableEq

inductive Stmt where
  /-- `let var = imp::sym.as_ptr() as usize;` -/
  | letAddress (var sym : Ident)
  /-- `let var = unsafe { imp::sym };` -/
  | letWord (var sym : Ident)
  /-- `let var = stack.get(imp::sym.as_ptr() as usize);` -/
  | letStackGet (var sym : Ident)
  /-- `let name = target_enum::name;` -/
  | letTarget (name targetEnum : Ident)
  /-- `let rets = name(args.into()..);` -/
  | letCall (rets : Pattern) (name : Ident) (args : List Ident)
  /-- `stack.set(imp::sym.as_ptr() as usize, var.into());` -/
  | stackSet (sym var : Ident)
  deriving DecidableEq

inductive Tail where
  /-- `match target { target_enum::name => become imp::fname(stack, args.into()..), .. }` -/
  | matchTarget (targetEnum : Ident) (branches : List (Ident × Ident)) (args : List Ident)
  /-- The returned names, each with `.into()`. -/
  | value (rets : List Ident)
  /-- `become transmute::<usize, extern abi fn(..)>(__next)(stack, args.into()..);` -/
  | becomeNextAddress (abi : Ident) (args : List Ident)
  /-- `become imp::copy_and_patch_next(stack, args.into()..);` -/
  | becomeNext (args : List Ident)
  deriving DecidableEq

inductive RetType where
  | unit
  | usize
  | tuple (elems : Nat)
  deriving DecidableEq

structure Wrapper where
  abi : Ident
  name : Ident
  params : List Ident
  returnType : RetType
  decls : List ImpDecl
  stmts : List Stmt
  tail : Tail
  deriving DecidableEq

/-- `locations.iter().join("_")`. -/
def joinLocations (locations : List U16) : Ident :=
  ['_'].intercalate ((locations.map BitVec.toNat).map decimal)

/-- The part of a wrapper's symbol after the prefix. -/
def stencilName (name : Ident) (inputs outputs : List U16) (wide : WidthVariant) : Ident :=
  name ++ "__".toList ++ joinLocations inputs ++ "__".toList ++ joinLocations outputs ++
    WidthVariant.suffix wide

def stencilSymbol (name : Ident) (inputs outputs : List U16) (wide : WidthVariant) : Ident :=
  "__patchouly__".toList ++ stencilName name inputs outputs wide

/-- Locations are written with digits and separators. -/
theorem mem_joinLocations {locations : List U16} {c : Char} (h : c ∈ joinLocations locations) :
    c = '_' ∨ c.isDigit = true := by
  rcases of_mem_intercalate h with h | ⟨part, hpart, hc⟩
  · exact Or.inl h
  · obtain ⟨n, -, rfl⟩ := List.mem_map.1 hpart
    exact Or.inr (isDigit_of_mem_decimal hc)

/-- A symbol is an identifier unless the function's name is a raw one. -/
theorem identNew_stencilSymbol (name : Ident) (inputs outputs : List U16) (wide : WidthVariant) :
    identNew (stencilSymbol name inputs outputs wide) =
      if '#' ∈ name then none else some (stencilSymbol name inputs outputs wide) := by
  have hjoin : ∀ locations : List U16, '#' ∉ joinLocations locations := by
    intro locations h
    rcases mem_joinLocations h with h | h <;> cases h
  have hsuffix : '#' ∉ WidthVariant.suffix wide := by cases wide <;> decide
  have hmem : ∀ start sep : Ident, '#' ∉ start → '#' ∉ sep →
      ('#' ∈ start ++ (name ++ sep ++ joinLocations inputs ++ sep ++ joinLocations outputs ++
        WidthVariant.suffix wide) ↔ '#' ∈ name) := by
    intro start sep hstart hsep
    simp only [List.mem_append, hstart, hsep, hjoin, hsuffix, or_false, false_or]
  have hsymbol : '#' ∈ stencilSymbol name inputs outputs wide ↔ '#' ∈ name := by
    unfold stencilSymbol stencilName
    exact hmem _ _ (by decide) (by decide)
  by_cases hname : '#' ∈ name
  · rw [if_pos hname, identNew, if_pos (hsymbol.2 hname)]
  · rw [if_neg hname, identNew, if_neg (mt hsymbol.1 hname)]

/-- `orig` is the text of the user's signature, kept in the metadata. -/
structure StencilFamily where
  name : Ident
  options : FamilyOptions
  sig : FnSignature
  orig : List U8

namespace StencilFamily

def metaOutputs (self : StencilFamily) : U16 :=
  if self.options.returns then 0 else self.sig.outputs

/-- The number of jump targets that `generate_meta` records. -/
def metaTargets (self : StencilFamily) : U16 :=
  if self.sig.targetEnum.isSome then BitVec.ofNat 16 self.sig.targetNames.length
  else if self.options.returns || self.options.trampoline then 0
  else 1

/-- The metadata symbol and its bytes. -/
def generateMeta (self : StencilFamily) : Option (Ident × List U8) := do
  let metaName ← identNew ("__patchouly__".toList ++ self.name ++ "__meta".toList)
  return (metaName, leBytes self.sig.inputs 2 ++ leBytes self.metaOutputs 2 ++
    leBytes self.options.getRegisters.val 2 ++
    leBytes (BitVec.ofNat 16 self.sig.holeNames.length) 2 ++ leBytes self.metaTargets 2 ++ self.orig)

/-- The name a wrapper uses for an operand. -/
def operandName (sig : StencilSignature) : WrapperCallArg → Option Ident
  | .reg i => sig.regNames[i.toNat]?
  | .stack i => sig.stackArgNames[i.toNat]?

def callArgName (self : StencilFamily) (sig : StencilSignature) : CallArg → Option Ident
  | .arg i => (sig.ioLocations[i.toNat]?).bind (operandName sig)
  | .hole i => self.sig.holeNames[i.toNat]?
  | .stack => some "stack".toList
  | .target i => self.sig.targetNames[i.toNat]?

/-- Also the names of the returned values when the wrapper returns. -/
def generateCall (self : StencilFamily) (sig : StencilSignature) :
    Option (Option (List Ident) × Stmt) := do
  let args ← self.sig.callArgs.mapM (self.callArgName sig)
  let retNames := if self.options.returns then
    some ((List.range self.sig.outputs.toNat).map (numbered "ret")) else none
  let rets ← match retNames with
    | some syms => some syms
    | none => (sig.ioLocations.drop sig.inputsNum).mapM (operandName sig)
  let pattern :=
    if self.sig.targetEnum.isSome then .ident "target".toList
    else match rets with
      | [ret] => .ident ret
      | _ => if self.options.trampoline then .ident "__next".toList else .tuple rets
  return (retNames, .letCall pattern self.name args)

/-- `{name}__{var}`, the external symbol behind a variable of the wrapper. -/
def symbolOf (self : StencilFamily) (var : Ident) : Ident := self.name ++ "__".toList ++ var

/-- The names of the operands on the stack. -/
def stackOperands (sig : StencilSignature) (locations : List WrapperCallArg) :
    Option (List Ident) :=
  (locations.filter fun | .stack _ => true | .reg _ => false).mapM (operandName sig)

structure Holes where
  defs : List ImpDecl
  inits : List Stmt
  outputs : List Stmt

def generateHoles (self : StencilFamily) (sig : StencilSignature) (wide : WidthVariant) :
    Option Holes := do
  let holeSym := fun var => self.symbolOf var ++ WidthVariant.suffix wide
  let inputs ← stackOperands sig (sig.ioLocations.take sig.inputsNum)
  let outputs ← stackOperands sig (sig.ioLocations.drop sig.inputsNum)
  let targets := match self.sig.targetEnum with
    | some targetEnum => self.sig.targetNames.map fun name => Stmt.letTarget name targetEnum
    | none => []
  return {
    defs :=
      self.sig.holeNames.map (fun var =>
        if wide then .word (holeSym var) else .array (holeSym var)) ++
      inputs.map (fun var => .array (self.symbolOf var)) ++
      outputs.map (fun var => .array (self.symbolOf var))
    inits :=
      self.sig.holeNames.map (fun var =>
        if wide then .letWord var (holeSym var) else .letAddress var (holeSym var)) ++
      inputs.map (fun var => .letStackGet var (self.symbolOf var)) ++ targets
    outputs := outputs.map fun var => .stackSet (self.symbolOf var) var }

def generateNext (self : StencilFamily) (rets : List Ident) (sig : StencilSignature) :
    RetType × List ImpDecl × Tail :=
  match self.sig.targetEnum with
  | some targetEnum =>
      (.unit, self.sig.targetNames.map fun name => .fn (self.symbolOf name) sig.regNames,
        .matchTarget targetEnum (self.sig.targetNames.map fun name => (name, self.symbolOf name))
          sig.regNames)
  | none =>
      if self.options.returns then
        (if self.sig.outputs = 1 then .usize else .tuple self.sig.outputs.toNat, [], .value rets)
      else if self.options.trampoline then
        (.unit, [], .becomeNextAddress self.options.getAbi sig.regNames)
      else
        (.unit, [.fn "copy_and_patch_next".toList sig.regNames], .becomeNext sig.regNames)

def generateStencil (self : StencilFamily) (inputLocations : List U16) (wide : WidthVariant) :
    Option Wrapper := do
  let inputs := self.sig.inputs.toNat
  let name ← identNew
    (stencilSymbol self.name (inputLocations.take inputs) (inputLocations.drop inputs) wide)
  let sig ← StencilSignature.new inputs inputLocations (self.options.getRegisters.val - 1)
  let holes ← self.generateHoles sig wide
  let (rets, call) ← self.generateCall sig
  let (returnType, nextDefs, tail) := self.generateNext (rets.getD []) sig
  return {
    abi := self.options.getAbi
    name
    params := sig.regNames
    returnType
    decls := holes.defs ++ nextDefs
    stmts := holes.inits ++ [call] ++ holes.outputs
    tail }

/-- The wrappers of one vector, the wide one after the narrow one. -/
def generateStencils (self : StencilFamily) (v : List U16) : Option (List Wrapper) := do
  let nw ← self.generateStencil v false
  if self.sig.holeNames = [] then return [nw]
  else
    let w ← self.generateStencil v true
    return [nw, w]

/-- `expand` drops the outputs of a trampoline. -/
def dropOutputs (self : StencilFamily) : StencilFamily :=
  if self.options.trampoline then { self with sig := { self.sig with outputs := 0 } } else self

/-- `expand`: the metadata and the wrappers of every vector. `fuel` bounds the number of vectors. -/
def expand (fuel : Nat) (self : StencilFamily) :
    Option (Except String ((Ident × List U8) × List Wrapper)) :=
  if self.options.trampoline && decide (0 < self.sig.inputs.toNat) then
    some (.error "trampolines cannot have arguments or return values")
  else do
    let self := self.dropOutputs
    let perm ← RegPermutation.new self.sig.inputs self.metaOutputs self.options.getRegisters
    let metadata ← self.generateMeta
    let vectors ← perm.collect fuel
    let wrappers ← vectors.mapM self.generateStencils
    return .ok (metadata, wrappers.flatten)

end StencilFamily

end Patchouly.Macros
