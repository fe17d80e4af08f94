import Patchouly.Build.Symbols
import Patchouly.Macros.Transfer
import Patchouly.Patch.Entries

/-!
# Operands on the stack

Three parts of the program number the operands of a stencil that are on the stack: the macro when it
names their symbols, the extractor when it reads a symbol, and `copy_and_patch` when it walks the
locations of an emission. The number of operand `j` is `stackBefore v j` in all of them
(`stack_numbering`).
-/

set_option autoImplicit false

namespace Patchouly.Build

open Patchouly.Lib Patchouly.Core Patchouly.Macros Patchouly.Patch

/-- `stack.get` and `stack.set`. -/
def isStackAccess : Stmt → Bool
  | .letStackGet _ _ => true
  | .stackSet _ _ => true
  | _ => false

section Wrapper

variable (fam : Macros.StencilFamily) (v : List U16)

/-- The variable and the symbol of a stack operand, by its number. -/
def stackVariable (j : Nat) : Ident := numbered "stack" (stackBefore v j)

def stackSymbol (j : Nat) : Ident := fam.symbolOf (stackVariable v j)

/-- The stack accesses of a wrapper, in order: every input on the stack is read, every output on the
stack is written. -/
def stackAccesses : List Stmt :=
  (stackPositions v 0 fam.sig.inputs.toNat).map (fun j =>
    .letStackGet (stackVariable v j) (stackSymbol fam v j)) ++
  (stackPositions v fam.sig.inputs.toNat (v.length - fam.sig.inputs.toNat)).map fun j =>
    .stackSet (stackSymbol fam v j) (stackVariable v j)

variable {fam v} {wide : WidthVariant} {w : Wrapper}

theorem filter_map_of_forall {α β : Type} {p : β → Bool} {f : α → β} {l : List α} {value : Bool}
    (h : ∀ a ∈ l, p (f a) = value) : (l.map f).filter p = if value then l.map f else [] := by
  cases value with
  | true =>
      rw [if_pos rfl, List.filter_eq_self]
      intro b hb
      obtain ⟨a, ha, rfl⟩ := List.mem_map.1 hb
      exact h a ha
  | false =>
      rw [if_neg Bool.false_ne_true, List.filter_eq_nil_iff]
      intro b hb
      obtain ⟨a, ha, rfl⟩ := List.mem_map.1 hb
      rw [h a ha]
      exact Bool.false_ne_true

/-- Of the statements around the call, the ones for operands access the stack. -/
theorem accesses_of_generateHoles {sig : StencilSignature} {holes : StencilFamily.Holes}
    {ins outs : List Ident}
    (hins : StencilFamily.stackOperands sig (sig.ioLocations.take sig.inputsNum) = some ins)
    (houts : StencilFamily.stackOperands sig (sig.ioLocations.drop sig.inputsNum) = some outs)
    (h : fam.generateHoles sig wide = some holes) :
    holes.inits.filter isStackAccess = ins.map (fun var => .letStackGet var (fam.symbolOf var)) ∧
      holes.outputs.filter isStackAccess = outs.map fun var => .stackSet (fam.symbolOf var) var := by
  simp only [StencilFamily.generateHoles, hins, houts, Option.bind_eq_bind, Option.bind_some,
    Option.pure_def] at h
  obtain rfl := Option.some.inj h
  constructor
  -- holes and jump targets are bound by other statements
  · have hholes : ∀ var ∈ fam.sig.holeNames, isStackAccess
        (if wide then .letWord var (fam.symbolOf var ++ WidthVariant.suffix wide)
        else .letAddress var (fam.symbolOf var ++ WidthVariant.suffix wide)) = false := by
      intro var _
      cases wide <;> rfl
    have hgets : ∀ var ∈ ins, isStackAccess (.letStackGet var (fam.symbolOf var)) = true :=
      fun _ _ => rfl
    have htargets : ∀ targetEnum, ∀ name ∈ fam.sig.targetNames,
        isStackAccess (.letTarget name targetEnum) = false := fun _ _ _ => rfl
    rw [List.filter_append, List.filter_append, filter_map_of_forall hholes,
      filter_map_of_forall hgets, if_neg Bool.false_ne_true, if_pos rfl, List.nil_append]
    cases fam.sig.targetEnum with
    | none => exact List.append_nil _
    | some targetEnum =>
        simp only [filter_map_of_forall (htargets targetEnum)]
        exact List.append_nil _
  · have hsets : ∀ var ∈ outs, isStackAccess (.stackSet (fam.symbolOf var) var) = true :=
      fun _ _ => rfl
    exact filter_map_of_forall hsets

theorem not_isStackAccess_of_generateCall {sig : StencilSignature} {rets : Option (List Ident)}
    {call : Stmt} (h : fam.generateCall sig = some (rets, call)) : isStackAccess call = false := by
  simp only [StencilFamily.generateCall, Option.bind_eq_bind, Option.pure_def] at h
  obtain ⟨args, -, h⟩ := Option.bind_eq_some_iff.1 h
  split at h
  all_goals
    obtain ⟨names, -, h⟩ := Option.bind_eq_some_iff.1 h
    obtain ⟨-, rfl⟩ := Prod.mk.inj (Option.some.inj h)
    rfl

/-- A wrapper accesses each operand on the stack through the symbol with its number. -/
theorem stackAccesses_of_generateStencil (hin : fam.sig.inputs.toNat ≤ v.length)
    (hlen : v.length < 2 ^ 16) (hlt : ∀ d ∈ v, d < fam.options.getRegisters.val)
    (h : fam.generateStencil v wide = some w) :
    w.stmts.filter isStackAccess = stackAccesses fam v ∧
      ∃ sig, StencilSignature.new fam.sig.inputs.toNat v (fam.options.getRegisters.val - 1) = some sig ∧
        ∀ j : Nat, v[j]? = some 0 → (sig.ioLocations[j]?).bind (StencilFamily.operandName sig) =
          some (stackVariable v j) := by
  have hle := StencilFamily.Plain.le_maxRegs_of_lt hlt
  obtain ⟨sig, hsig, D⟩ := new_eq hin hlen hle
  -- the names of operands on the stack
  have hnames : ∀ a n, (stackPositions v a n).map (operand fam.sig.inputs.toNat v) =
      (stackPositions v a n).map (stackVariable v) := by
    intro a n
    apply List.map_congr_left
    intro j hj
    exact operand_stack (mem_stackPositions.1 hj).2
  have hdrop : (sig.ioLocations.drop fam.sig.inputs.toNat).take (v.length - fam.sig.inputs.toNat) =
      sig.ioLocations.drop fam.sig.inputs.toNat := by
    apply List.take_of_length_le
    rw [List.length_drop, D.length]
  have hins := @Describes.stackOperands _ _ _ _ D hlen hle 0 fam.sig.inputs.toNat (by omega)
  have houts := @Describes.stackOperands _ _ _ _ D hlen hle fam.sig.inputs.toNat
    (v.length - fam.sig.inputs.toNat) (by omega)
  rw [List.drop_zero, hnames, ← D.inputsNum] at hins
  rw [hdrop, hnames, ← D.inputsNum] at houts
  constructor
  · simp only [StencilFamily.generateStencil, hsig, Option.bind_eq_bind, Option.bind_some,
      Option.pure_def] at h
    obtain ⟨name, -, h⟩ := Option.bind_eq_some_iff.1 h
    obtain ⟨holes, hholes, h⟩ := Option.bind_eq_some_iff.1 h
    obtain ⟨⟨rets, call⟩, hcall, h⟩ := Option.bind_eq_some_iff.1 h
    obtain rfl := Option.some.inj h
    obtain ⟨hgets, hsets⟩ := accesses_of_generateHoles hins houts hholes
    rw [List.filter_append, List.filter_append, hgets, hsets, List.filter_cons,
      not_isStackAccess_of_generateCall hcall, List.map_map, List.map_map, D.inputsNum, stackAccesses]
    rw [if_neg Bool.false_ne_true, List.filter_nil, List.append_nil]
    rfl
  · refine ⟨sig, hsig, ?_⟩
    intro j hj
    rw [D.ioLocations, hj, Option.map_some, Option.bind_some,
      D.operandName hlen (hle 0 (List.mem_of_getElem? hj)) hj]
    exact congrArg some (operand_stack hj)

end Wrapper

/-! ## The locations of an emission -/

def isStack : Location → Bool
  | .stack _ => true
  | .register _ => false

/-- The same operands are on the stack. -/
def SameShape (v : List U16) (locations : List Location) : Prop :=
  v.map (fun d => decide (d = 0)) = locations.map isStack

instance (v : List U16) (locations : List Location) : Decidable (SameShape v locations) :=
  inferInstanceAs (Decidable (_ = _))

/-- The emission numbers the operands on the stack as the macro does. -/
theorem stackVars_getElem? {v : List U16} {locations : List Location} (h : SameShape v locations)
    {j : Nat} {slot : U16} (hj : locations[j]? = some (.stack slot)) :
    (stackVars locations)[stackBefore v j]? = some (slot.setWidth 64) := by
  -- on the locations; `stackBefore` counts in `v` what `stackVars` collects from them
  induction locations generalizing v j with
  | nil => cases hj
  | cons l locations ih =>
      cases v with
      | nil => cases h
      | cons d v =>
          obtain ⟨hd, hv⟩ := List.cons.inj h
          cases j with
          | zero =>
              obtain rfl := Option.some.inj hj
              rfl
          | succ j =>
              have hrest := ih hv hj
              rw [stackBefore_succ]
              cases l with
              | stack slot' =>
                  rw [if_pos (of_decide_eq_true hd)]
                  exact hrest
              | register r =>
                  rw [if_neg (of_decide_eq_false hd), Nat.add_zero]
                  exact hrest

/-- An emission with the shape of `v` patches the absolute fields of operand `j`'s number with the slot of
that operand and the addend. -/
def PatchesSlot (v : List U16) (j : Nat) : Prop :=
  ∀ (checks wide : Bool) (MAX_REGS IN OUT HOLES JUMPS offset : Nat) (b b' : PatchBlock MAX_REGS)
    (store : Core.StencilFamily IN OUT MAX_REGS HOLES JUMPS) (s : Stencil) (relocs : List Relocation)
    (inputs : Vector Location IN) (outputs : Vector Location OUT) (holes : Vector Usize HOLES)
    (jumps : Vector JumpTarget JUMPS) (slot : U16),
    SameShape v (inputs.toList ++ outputs.toList) →
      (inputs.toList ++ outputs.toList)[j]? = some (.stack slot) →
        b.copyAndPatch checks store s inputs outputs holes jumps wide offset = some b' →
          s.relocations store = some relocs →
            (stackVars (inputs.toList ++ outputs.toList))[stackBefore v j]? = some (slot.setWidth 64) ∧
            ∀ pre r post, validEntries relocs = pre ++ r :: post →
              r.patchInfo = some (.stack (BitVec.ofNat 16 (stackBefore v j))) → r.relative = false →
                let field : Write := ⟨offset + r.offset.toNat,
                  leBytes (slot.setWidth 64 + r.addend.signExtend 64) r.fieldLen⟩
                let later := inlineWrites wide offset (stackVars (inputs.toList ++ outputs.toList))
                  holes.toList b.library.rtSymbols post
                field ∈ inlineWrites wide offset (stackVars (inputs.toList ++ outputs.toList))
                    holes.toList b.library.rtSymbols (validEntries relocs) ∧
                  (readBytes b'.code field.pos r.fieldLen = field.bytes ↔ field.KeptBy later)

theorem patchesSlot {v : List U16} {j : Nat} (hn : stackBefore v j < 2 ^ 16) : PatchesSlot v j := by
  intro checks wide MAX_REGS IN OUT HOLES JUMPS offset b b' store s relocs inputs outputs holes jumps
    slot hshape hj hcopy hrelocs
  have hvar := stackVars_getElem? hshape hj
  refine ⟨hvar, ?_⟩
  intro pre r post hentry hi hrel field later
  obtain ⟨code, -, heffect⟩ := entryEffect_of_copyAndPatch hcopy hrelocs
  have hindex : (BitVec.ofNat 16 (stackBefore v j)).toNat = stackBefore v j := toNat_ofNat_of_lt hn
  have hinline : inlineValue wide (stackVars (inputs.toList ++ outputs.toList)) holes.toList
      b.library.rtSymbols r = some (slot.setWidth 64) := by
    simp only [inlineValue, hi, hindex, hvar]
  have hfield : inlineField offset r (slot.setWidth 64) = field := by
    simp only [inlineField, hrel, Bool.false_eq_true, if_false]
    rfl
  -- the entries before the field are written earlier, those behind it may overwrite it
  rw [hentry] at heffect
  have hread := heffect.read_field hinline
  rw [hfield] at hread
  refine ⟨?_, hread⟩
  rw [hentry]
  exact List.mem_filterMap.2 ⟨r, List.mem_append_right _ List.mem_cons_self, by
    rw [hinline, Option.map_some, hfield]⟩

/-! ## The agreement -/

/-- **Stack operands** have one number: a wrapper accesses them through the symbols with their numbers,
the extractor reads the number off the symbol, and an emission with the same operands on the stack
patches the fields with that number with the operand's slot. -/
theorem stack_numbering {fam : Macros.StencilFamily} {v : List U16} (hsig : fam.sig.Valid)
    (hlen : v.length = fam.sig.inputs.toNat + fam.metaOutputs.toNat)
    (hlt : ∀ d ∈ v, d < fam.options.getRegisters.val) :
    (∀ wide w, fam.generateStencil v wide = some w →
      w.stmts.filter isStackAccess = stackAccesses fam v ∧
        ∃ sig, StencilSignature.new fam.sig.inputs.toNat v (fam.options.getRegisters.val - 1) =
            some sig ∧
          ∀ j : Nat, v[j]? = some 0 → (sig.ioLocations[j]?).bind (StencilFamily.operandName sig) =
            some (stackVariable v j)) ∧
    ∀ j : Nat, v[j]? = some 0 →
      getPatchType fam.name (stackSymbol fam v j) =
        some (some (.stack (BitVec.ofNat 16 (stackBefore v j)))) ∧ PatchesSlot v j := by
  have hout : fam.metaOutputs.toNat ≤ fam.sig.outputs.toNat := by
    rw [StencilFamily.metaOutputs]
    split
    · exact Nat.zero_le _
    · exact Nat.le_refl _
  have hbound := hsig.bound
  have hv : v.length < 2 ^ 16 := by omega
  constructor
  · intro wide w h
    exact stackAccesses_of_generateStencil (by omega) hv hlt h
  · intro j hj
    have hcount := stackBefore_lt_stackCount hj
    have hle := stackCount_le_length v
    have hn : stackBefore v j < 2 ^ 16 := by omega
    refine ⟨?_, patchesSlot hn⟩
    -- the number survives the cut to `u16`
    have hsymbol := @EmittedAs.stack fam.name (BitVec.ofNat 16 (stackBefore v j))
    rw [toNat_ofNat_of_lt hn] at hsymbol
    exact getPatchType_of_emittedAs hsymbol

/-- An absolute 32-bit field at offset 1 for `Stack(1)`. -/
def slotField : Relocation := ⟨0x0001100020010001⟩

def slotLibrary : StencilLibrary 1 := ⟨[0xB8, 0, 0, 0, 0], [], ⟨[.new], []⟩, []⟩

def slotFamily : Core.StencilFamily 1 1 1 0 0 := ⟨[slotField, .new], [⟨0, 5, 0⟩]⟩

/-- `add1` with its operand in slot 3 and its result in slot 7: the result has the number 1, and a field
with this number gets its slot. -/
theorem stack_numbering_add1 :
    (∃ w, (StencilFamily.unary "add1".toList).generateStencil [0, 0] false = some w ∧
      w.stmts.filter isStackAccess = stackAccesses (StencilFamily.unary "add1".toList) [0, 0]) ∧
    getPatchType "add1".toList "add1__stack1".toList = some (some (.stack 1)) ∧
    ∃ b', (PatchBlock.new slotLibrary).copyAndPatch true slotFamily ⟨0, 5, 0⟩ #v[.stack 3] #v[.stack 7]
      #v[] #v[] false 0 = some b' ∧ readBytes b'.code 1 4 = [7, 0, 0, 0] := by
  have hlt : ∀ d ∈ [(0 : U16), 0], d < (2 : U16) := by
    intro d hd
    obtain rfl : d = 0 := by simpa using hd
    decide
  have hnumber := @stack_numbering (StencilFamily.unary "add1".toList) [0, 0]
    (FnSignature.valid_of_parse (StencilFamily.parse_unary "add1".toList)) rfl hlt
  obtain ⟨w, hw⟩ : ∃ w, (StencilFamily.unary "add1".toList).generateStencil [0, 0] false = some w :=
    Option.isSome_iff_exists.1 (by decide +kernel)
  obtain ⟨htype, hslot⟩ := hnumber.2 1 rfl
  have hname : stackSymbol (StencilFamily.unary "add1".toList) [0, 0] 1 = "add1__stack1".toList := by
    decide +kernel
  rw [hname] at htype
  obtain ⟨b', hb'⟩ : ∃ b', (PatchBlock.new slotLibrary).copyAndPatch true slotFamily ⟨0, 5, 0⟩
      #v[.stack 3] #v[.stack 7] #v[] #v[] false 0 = some b' :=
    Option.isSome_iff_exists.1 (by decide +kernel)
  obtain ⟨-, hfields⟩ := hslot true false 1 1 1 0 0 0 _ b' slotFamily ⟨0, 5, 0⟩ _ #v[.stack 3]
    #v[.stack 7] #v[] #v[] 7 (by decide) rfl hb' rfl
  obtain ⟨-, hread⟩ := hfields [] slotField [] (by decide +kernel) (by decide) (by decide)
  exact ⟨⟨w, hw, (hnumber.1 false w hw).1⟩, htype, b', hb', hread.2 (Write.keptBy_nil _)⟩

end Patchouly.Build
