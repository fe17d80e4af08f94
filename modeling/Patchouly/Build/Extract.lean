import Mathlib.Data.List.Sort
import Patchouly.Build.Family
import Patchouly.Build.Symbols
import Patchouly.Lib.Tables

/-!
# Extraction (`patchouly-build`, `extract.rs`)

`extract` walks over the symbols of the object files in an archive. For the symbol of a stencil it
reads the stencil's code and relocations and adds them to the family of the stencil's function.

Archives and object files are what the `object` crate reports of them: `none` where it returns an
error. The demangler of runtime symbols is a parameter, and so are the overflow checks of the crate. A
`Run` is `none` for a panic.
-/

set_option autoImplicit false

namespace Patchouly.Build

open Patchouly.Lib Patchouly.Core Patchouly.Macros

/-! ## Object files -/

inductive SymbolKind where
  | text
  | data
  | other
  deriving DecidableEq

structure ObjectSymbol where
  kind : SymbolKind
  name : Option Ident
  sectionIndex : Option Nat
  address : Nat
  size : Nat
  deriving DecidableEq

inductive RelocationKind where
  | absolute
  | relative
  | pltRelative
  | other
  deriving DecidableEq

inductive ObjectEncoding where
  | generic
  | x86Signed
  | other
  deriving DecidableEq

inductive RelocationTarget where
  | symbol (index : Nat)
  | other
  deriving DecidableEq

structure ObjectRelocation where
  kind : RelocationKind
  encoding : ObjectEncoding
  size : U8
  addend : Int
  target : RelocationTarget
  deriving DecidableEq

structure ObjectSection where
  address : Nat
  data : Option (List U8)
  relocations : List (Nat × ObjectRelocation)
  deriving DecidableEq

/-- `data_range(address, size)`: the part of the section's data from `address` on. -/
def ObjectSection.dataRange (self : ObjectSection) (address size : Nat) : Option (List U8) := do
  let data ← self.data
  if self.address ≤ address ∧ address - self.address + size ≤ data.length then
    some ((data.drop (address - self.address)).take size)
  else none

structure ObjectFile where
  symbols : List ObjectSymbol
  symbolByIndex : Nat → Option ObjectSymbol
  sectionByIndex : Nat → Option ObjectSection

/-- The first symbol of that name. -/
def ObjectFile.symbolByName (self : ObjectFile) (name : Ident) : Option ObjectSymbol :=
  self.symbols.find? fun symbol => symbol.name = some name

structure Member where
  name : List U8
  file : Option ObjectFile

/-- The name ends in `.o`. -/
def Member.isObject (self : Member) : Bool := [0x2E, 0x6F].isSuffixOf self.name

def getData (file : ObjectFile) (symbol : ObjectSymbol) : Option (ObjectSection × List U8) := do
  let index ← symbol.sectionIndex
  let sect ← file.sectionByIndex index
  let data ← sect.dataRange symbol.address symbol.size
  return (sect, data)

/-! ## Runs -/

abbrev Run (α : Type) := ExceptT ExtractError Option α

namespace Run

/-- A step that cannot fail but can panic. -/
def ofOption {α : Type} (x : Option α) : Run α := ExceptT.lift x

def ofExcept {α : Type} (x : Except ExtractError α) : Run α := ExceptT.mk (some x)

/-- A result and the state that an operation leaves behind. -/
def ofResult {σ : Type} (x : Option (Except ExtractError Unit × σ)) : Run σ :=
  (x.map fun (result, state) => result.map fun () => state : Option (Except ExtractError σ))

theorem bind_eq_pure {α β : Type} {x : Run α} {f : α → Run β} {b : β} :
    x >>= f = pure b ↔ ∃ a, x = pure a ∧ f a = pure b := by
  constructor
  · intro h
    rcases x with _ | e | a
    · cases h
    · cases h
    · exact ⟨a, rfl, h⟩
  · rintro ⟨a, rfl, h⟩
    exact h

theorem pure_inj {α : Type} {a b : α} (h : (pure a : Run α) = pure b) : a = b := by
  cases h
  rfl

theorem ofOption_eq_pure {α : Type} {x : Option α} {a : α} : ofOption x = pure a ↔ x = some a := by
  cases x with
  | none => exact iff_of_false (fun h => by cases h) (by simp)
  | some b =>
      constructor
      · intro h
        rw [pure_inj h]
      · rintro h
        rw [Option.some.inj h]
        rfl

theorem ofExcept_eq_pure {α : Type} {x : Except ExtractError α} {a : α} :
    ofExcept x = pure a ↔ x = .ok a := by
  cases x with
  | error e => exact iff_of_false (fun h => by cases h) (by simp)
  | ok b =>
      constructor
      · intro h
        rw [pure_inj h]
      · rintro h
        rw [Except.ok.inj h]
        rfl

theorem ofResult_eq_pure {σ : Type} {x : Option (Except ExtractError Unit × σ)} {s : σ} :
    ofResult x = pure s ↔ x = some (.ok (), s) := by
  rcases x with _ | ⟨e | u, s'⟩
  · exact iff_of_false (fun h => by cases h) (by simp)
  · exact iff_of_false (fun h => by cases h) (by simp)
  · constructor
    · intro h
      obtain rfl : s' = s := pure_inj h
      rfl
    · rintro h
      obtain ⟨-, rfl⟩ := Prod.mk.inj (Option.some.inj h)
      rfl

end Run

/-! ## Metadata -/

/-- `u16::from_le_bytes(data[start..start + 2])`, for a start inside the data. -/
def u16At (data : List U8) (start : Nat) : U16 :=
  BitVec.ofNat 16 (ofLeBytes ((data.drop start).take 2))

/-- The slices panic on fewer than ten bytes. -/
def Metadata.unpack (data : List U8) : Option Metadata :=
  if 10 ≤ data.length then
    some
      { inputs := u16At data 0
        outputs := u16At data 2
        maxRegs := u16At data 4
        holes := u16At data 6
        jumps := u16At data 8
        signature := fromUtf8Lossy (data.drop 10) }
  else none

/-! ## Relocations -/

/-- The fields of a `Relocation`, lowest bits last. -/
def packRelocation (offset : U16) (encoding : BitVec 7) (relative : Bool) (size : U8)
    (addend : BitVec 12) (kind : BitVec 4) (id : U16) : Relocation :=
  ⟨id ++ kind ++ addend ++ size ++ BitVec.ofBool relative ++ encoding ++ offset⟩

/-- `checked_set_addend`: the setter compares with the largest number of twelve bits without a sign, and
keeps the low twelve bits of the others. -/
def checkedAddend (addend : Int) : Except ExtractError (BitVec 12) :=
  if addend < -2 ^ 15 ∨ 2 ^ 15 ≤ addend then .error .tryFromInt
  else if 2 ^ 12 ≤ addend then .error .tooBig
  else .ok (BitVec.ofInt 12 addend)

def PatchType.kindAndId : PatchType → BitVec 4 × U16
  | .hole i => (0, i)
  | .stack i => (1, i)
  | .target i => (2, i)
  | .runtime i => (3, i)
  | .next => (2, 0)

def newRelocation (offset : Nat) (relocation : ObjectRelocation) (patch : PatchType) :
    Except ExtractError Relocation := do
  let offset ← (tryInto 16 offset).elim (.error .tryFromInt) .ok
  let encoding ← match relocation.encoding with
    | .generic => .ok 1
    | .x86Signed => .ok 2
    | .other => .error .unsupportedEncoding
  let relative ← match relocation.kind with
    | .absolute => .ok false
    | .relative | .pltRelative => .ok true
    | .other => .error .unsupportedKind
  let addend ← checkedAddend relocation.addend
  let (kind, id) := patch.kindAndId
  return packRelocation offset encoding relative relocation.size addend kind id

/-! ## Runtime symbols -/

structure RuntimeSymbols where
  allowList : List Ident
  symbols : List (Ident × U16)

namespace RuntimeSymbols

def new (allowList : List Ident) : RuntimeSymbols := ⟨allowList, []⟩

section

variable (demangle : Ident → Ident)

def allows (allowList : List Ident) (name : Ident) : Bool :=
  allowList.any fun s => s.isPrefixOf (demangle name)

/-- The next id has to exist even for a symbol that has one. -/
def addSymbol (self : RuntimeSymbols) (name : Ident) : Option (U16 × RuntimeSymbols) :=
  if allows demangle self.allowList name then do
    let i ← tryInto 16 self.symbols.length
    match self.symbols.lookup name with
    | some id => return (id, self)
    | none => return (i, { self with symbols := self.symbols ++ [(name, i)] })
  else none

end

/-- `Vec::from`. -/
def toVec (self : RuntimeSymbols) : Option (List Ident) :=
  self.symbols.foldlM (fun v (name, index) =>
    if index.toNat < v.length then some (v.set index.toNat name) else none)
    (List.replicate self.symbols.length [])

end RuntimeSymbols

/-! ## The symbol loop -/

/-- What the loop reads of a stencil before its relocations. -/
structure StencilSymbol where
  symName : Ident
  name : Ident
  wide : Bool
  io : StencilArgs
  sect : ObjectSection
  code : List U8

/-- The stencil of a text symbol, if it is one. -/
def stencilSymbol (checks : Bool) (file : ObjectFile) (symbol : ObjectSymbol) :
    Option (Option StencilSymbol) :=
  match symbol.name.bind (stripPrefix STENCIL_FUNC_PREFIX) with
  | none => some none
  | some symName => do
      match ← parseName checks symName with
      | none => return none
      | some (name, wide, io) =>
          match getData file symbol with
          | none => return none
          | some (sect, code) => return some { symName, name, wide, io, sect, code }

/-- The local variables of `extract`. -/
structure Extractor where
  libName : Option Ident
  maxRegs : Option U16
  allCode : List U8
  stencils : List (Ident × StencilFamilyBuilder)
  rtSymbols : RuntimeSymbols

structure Extraction where
  libName : Ident
  allCode : List U8
  maxRegs : Nat
  families : List (Ident × StencilFamilyBuild)
  rtSymbols : List Ident

def LIB_NAME_SYMBOL : Ident := "__STENCIL_API_NAME".toList

namespace Extractor

def new (allowedSymbols : List Ident) : Extractor :=
  { libName := none
    maxRegs := none
    allCode := []
    stencils := []
    rtSymbols := RuntimeSymbols.new allowedSymbols }

/-- A symbol that is not text can name the library. -/
def setLibName (file : ObjectFile) (symbol : ObjectSymbol) (self : Extractor) : Extractor :=
  if symbol.kind = .data ∧ symbol.name = some LIB_NAME_SYMBOL then
    match getData file symbol with
    | some (_, data) => { self with libName := some (fromUtf8Lossy data) }
    | none => self
  else self

section

variable (checks : Bool) (demangle : Ident → Ident)

/-- One turn of the relocation loop; without a relocation the symbol is skipped (`continue 'next`). -/
def relocationOf (file : ObjectFile) (stencil : StencilSymbol) (offset : Nat)
    (info : ObjectRelocation) (rt : RuntimeSymbols) : Run (Option Relocation × RuntimeSymbols) :=
  match info.target with
  | .other => return (none, rt)
  | .symbol target =>
      match file.symbolByIndex target with
      | none => return (none, rt)
      | some sym =>
          if sym.sectionIndex.isSome then throw (.notInlined stencil.symName stencil.name)
          else
            match sym.name with
            | none => return (none, rt)
            | some reloc => do
                match ← Run.ofOption (getPatchType stencil.name reloc) with
                | some patch =>
                    let reloc ← Run.ofExcept (newRelocation offset info patch)
                    return (some reloc, rt)
                | none =>
                    match rt.addSymbol demangle reloc with
                    | none => return (none, rt)
                    | some (id, rt) =>
                        let reloc ← Run.ofExcept (newRelocation offset info (.runtime id))
                        return (some reloc, rt)

def relocationsOf (file : ObjectFile) (stencil : StencilSymbol) :
    List (Nat × ObjectRelocation) → RuntimeSymbols →
      Run (Option (List Relocation) × RuntimeSymbols)
  | [], rt => return (some [], rt)
  | (offset, info) :: rest, rt => do
      match ← relocationOf demangle file stencil offset info rt with
      | (none, rt) => return (none, rt)
      | (some reloc, rt) =>
          let (relocations, rt) ← relocationsOf file stencil rest rt
          return (relocations.map (reloc :: ·), rt)

/-- `sort_by_key` is stable. -/
def sortByOffset (relocations : List Relocation) : List Relocation :=
  relocations.insertionSort fun a b => a.offset ≤ b.offset

/-- The builder of a function, a new one at its first stencil. -/
def builderOf (file : ObjectFile) (name : Ident) (self : Extractor) :
    Run (StencilFamilyBuilder × Extractor) :=
  match self.stencils.lookup name with
  | some builder => return (builder, self)
  | none =>
      match (file.symbolByName (STENCIL_FUNC_PREFIX ++ name ++ "__meta".toList)).bind
          (getData file) with
      | none => throw (.noMeta name)
      | some (_, data) => do
          let metadata ← Run.ofOption (Metadata.unpack data)
          match self.maxRegs with
          | some maxRegs =>
              if maxRegs ≠ metadata.maxRegs then throw (.maxRegsDiffer name)
              else return (StencilFamilyBuilder.new metadata, self)
          | none =>
              return (StencilFamilyBuilder.new metadata,
                { self with maxRegs := some metadata.maxRegs })

def addStencil (file : ObjectFile) (stencil : StencilSymbol) (self : Extractor) :
    Run Extractor := do
  let (relocations, rtSymbols) ←
    relocationsOf demangle file stencil stencil.sect.relocations self.rtSymbols
  let self := { self with rtSymbols }
  match relocations with
  | none => return self
  | some relocations =>
      let start := self.allCode.length
      let self := { self with allCode := self.allCode ++ stencil.code }
      let (builder, self) ← builderOf file stencil.name self
      let builder ← Run.ofResult (builder.addStencil checks
        { name := stencil.symName
          code := ⟨start, self.allCode.length⟩
          io := stencil.io
          wide := stencil.wide
          relocations := sortByOffset relocations })
      return { self with stencils := setKey stencil.name builder self.stencils }

def addSymbol (file : ObjectFile) (symbol : ObjectSymbol) (self : Extractor) : Run Extractor := do
  if symbol.kind ≠ .text then
    return self.setLibName file symbol
  else
    match ← Run.ofOption (stencilSymbol checks file symbol) with
    | none => return self
    | some stencil => self.addStencil checks demangle file stencil

def addSymbols (file : ObjectFile) : List ObjectSymbol → Extractor → Run Extractor
  | [], self => return self
  | symbol :: symbols, self => do
      let self ← self.addSymbol checks demangle file symbol
      addSymbols file symbols self

def addMembers : List (Option Member) → Extractor → Run Extractor
  | [], self => return self
  | none :: _, _ => throw .object
  | some member :: members, self =>
      if ¬ member.isObject then addMembers members self
      else
        match member.file with
        | none => throw .object
        | some file => do
            let self ← self.addSymbols checks demangle file file.symbols
            addMembers members self

end

end Extractor

/-- A library without a name panics. -/
def extract (checks : Bool) (demangle : Ident → Ident) (members : List (Option Member))
    (allowedSymbols : List Ident) : Run Extraction := do
  let self ← (Extractor.new allowedSymbols).addMembers checks demangle members
  let libName ← Run.ofOption self.libName
  let rtSymbols ← Run.ofOption self.rtSymbols.toVec
  return {
    libName
    allCode := self.allCode
    maxRegs := (self.maxRegs.getD 0).toNat
    families := self.stencils.map fun (name, builder) => (name, builder.finalize)
    rtSymbols }

end Patchouly.Build
