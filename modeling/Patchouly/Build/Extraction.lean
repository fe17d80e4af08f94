import Patchouly.Build.Completeness
import Patchouly.Build.Linking

/-!
# What extraction stores

A stencil is stored when its slot has its code and its complete relocation list, with an entry for every
relocation that says what the relocation says. A run that ends well stores a stencil with code exactly
when it survives, that is, when the last stencil kept for its slot has the same code and relocations, and
its addends fit the twelve bits of an entry (`noneDropped_iff`). A stencil that refers to a symbol which
is not allowed does not survive, and the run ends well without it (`not_noneDropped`).
-/

set_option autoImplicit false

namespace Patchouly.Build

open Patchouly.Lib Patchouly.Core Patchouly.Macros

/-- A function and an index into its family's table. -/
def slotOf (maxRegs : U16) (c : Candidate) : Ident × Nat :=
  (c.stencil.name,
    ioToIndex c.stencil.io.inputs c.stencil.io.outputs maxRegs.toNat c.stencil.wide)

/-- The last stencil that is kept for the slot of `c`. -/
def lastKept (kept : List Candidate) (c : Candidate) : Option Candidate :=
  kept.reverse.find? fun k =>
    slotOf ((regsOf kept).getD 0) k = slotOf ((regsOf kept).getD 0) c

/-- The slot of the stencil has its code and these relocations. -/
def InSlot (ex : Extraction) (c : Candidate) (relocations : List Relocation) : Prop :=
  ∃ family stencil, ex.families.lookup c.stencil.name = some family ∧
    family.stencils[ioToIndex c.stencil.io.inputs c.stencil.io.outputs family.MAX_REGS
      c.stencil.wide]? = some stencil ∧
    stencil.code ex.allCode = some c.stencil.code ∧
    (stencil.relocations family.typed).map validEntries = some relocations

/-- The addends of a stencil's relocations fit the entries. -/
def AddendsFit (c : Candidate) : Prop :=
  ∀ entry ∈ c.stencil.sect.relocations, entry.2.AddendFits

section Demangle

variable (checks : Bool) (demangle : Ident → Ident) (allowedSymbols : List Ident)

/-- The slot of the stencil has its code and its complete relocation list, and every relocation is
rendered by an entry of that list. -/
def Stored (ex : Extraction) (c : Candidate) : Prop :=
  ∃ relocations, InSlot ex c relocations ∧
    relocationList demangle allowedSymbols ex.rtSymbols c = some relocations ∧
    ∀ entry ∈ c.stencil.sect.relocations, ∃ r ∈ relocations,
      Renders demangle allowedSymbols ex.rtSymbols c entry r

/-- Every relocation of the stencil refers to something the extractor knows. -/
def Expressible (c : Candidate) : Prop :=
  ∀ entry ∈ c.stencil.sect.relocations, (reference demangle allowedSymbols c entry.2).isSome = true

/-- Every stencil with code can be expressed and is stored. -/
def NoneDropped (members : List (Option Member)) (ex : Extraction) : Prop :=
  ∀ c ∈ candidates checks members, c.stencil.code ≠ [] →
    Expressible demangle allowedSymbols c ∧ Stored demangle allowedSymbols ex c

/-- The last stencil kept for the slot of `c` has the code and the relocations of `c`. -/
def Survives (members : List (Option Member)) (c : Candidate) : Prop :=
  ∃ k, lastKept (link demangle allowedSymbols checks members).1 c = some k ∧
    k.stencil.code = c.stencil.code ∧
    relocationList demangle allowedSymbols (link demangle allowedSymbols checks members).2 k =
      relocationList demangle allowedSymbols (link demangle allowedSymbols checks members).2 c

variable {checks} {demangle allowedSymbols} {final : List Ident} {kept : List Candidate}

/-! ## The last stencil of a slot -/

theorem map_snd_placed (start : Nat) (kept : List Candidate) :
    (placed start kept).map Prod.snd = kept := by
  induction kept generalizing start with
  | nil => rfl
  | cons c kept ih => rw [placed, List.map_cons, ih]

/-- The last placed stencil of a function and an index. -/
def lastPlaced (maxRegs : U16) (kept : List Candidate) (slot : Ident × Nat) :
    Option (Nat × Candidate) :=
  (placed 0 kept).reverse.find? fun p => slotOf maxRegs p.2 = slot

theorem lastKept_eq (kept : List Candidate) (c : Candidate) :
    lastKept kept c = (lastPlaced ((regsOf kept).getD 0) kept
      (slotOf ((regsOf kept).getD 0) c)).map Prod.snd := by
  have hfind := @List.find?_map (Nat × Candidate) Candidate
    (fun k => slotOf ((regsOf kept).getD 0) k = slotOf ((regsOf kept).getD 0) c) Prod.snd
    (placed 0 kept).reverse
  rw [List.map_reverse, map_snd_placed] at hfind
  exact hfind

theorem lastCall_callsOf (maxRegs : U16) (name : Ident) (i : Nat) :
    lastCall maxRegs.toNat (callsOf demangle allowedSymbols final name kept) i =
      (lastPlaced maxRegs kept (name, i)).map (callOf demangle allowedSymbols final) := by
  rw [lastCall, callsOf, ← List.map_reverse, ← List.filter_reverse, List.find?_map,
    List.find?_filter, lastPlaced]
  congr 2
  funext p
  rw [Bool.eq_iff_iff]
  simp only [decide_eq_true_eq, Function.comp_apply, slotOf, Prod.mk.injEq]
  exact Iff.rfl

theorem lastPlaced_eq_some {maxRegs : U16} {slot : Ident × Nat} {p : Nat × Candidate}
    (h : lastPlaced maxRegs kept slot = some p) :
    p ∈ placed 0 kept ∧ slotOf maxRegs p.2 = slot :=
  ⟨List.mem_reverse.1 (List.mem_of_find?_eq_some h), by simpa using List.find?_some h⟩

/-- The entries of an extracted list are not end markers. -/
theorem isInvalid_of_relocationList {c : Candidate} {relocations : List Relocation}
    (h : relocationList demangle allowedSymbols final c = some relocations) :
    ∀ r ∈ relocations, r.isInvalid = false := by
  intro r hr
  obtain ⟨relocs, hrelocs, rfl⟩ := Option.map_eq_some_iff.1 h
  rw [Extractor.sortByOffset, List.mem_insertionSort] at hr
  obtain ⟨entry, -, hentry⟩ := source_of_mapM hrelocs hr
  obtain ⟨patch, -, hnew⟩ := newRelocation_of_expressed hentry
  exact isInvalid_of_newRelocation hnew

/-- Every relocation has its entry in an extracted list. -/
theorem entry_of_relocationList {c : Candidate} {relocations : List Relocation}
    (h : relocationList demangle allowedSymbols final c = some relocations)
    {entry : Nat × ObjectRelocation} (hentry : entry ∈ c.stencil.sect.relocations) :
    ∃ r ∈ relocations, expressed demangle allowedSymbols final c entry = some r := by
  obtain ⟨relocs, hrelocs, rfl⟩ := Option.map_eq_some_iff.1 h
  obtain ⟨r, hr, hreloc⟩ := result_of_mapM hrelocs hentry
  refine ⟨r, ?_, hreloc⟩
  rw [Extractor.sortByOffset, List.mem_insertionSort]
  exact hr

/-- What the stencil of a kept call reads back. -/
theorem read_of_stores {family : StencilFamilyBuild} {stencil : Stencil} {p : Nat × Candidate}
    (hp : p ∈ placed 0 kept) {relocations : List Relocation}
    (hrelocs : relocationList demangle allowedSymbols final p.2 = some relocations)
    (h : Stores family.relocationData (callOf demangle allowedSymbols final p) stencil) :
    stencil.code (codeOf kept) = some p.2.stencil.code ∧
      (stencil.relocations family.typed).map validEntries = some relocations := by
  have hcall : (callOf demangle allowedSymbols final p).relocations = relocations := by
    rw [callOf, hrelocs]
    rfl
  have hstored := StoredIn.of_stores h (by
    rw [hcall]
    exact isInvalid_of_relocationList hrelocs)
  refine ⟨?_, hcall ▸ hstored.relocations⟩
  obtain ⟨-, before, after, hcode, hstart⟩ := mem_placed hp
  have hindex : stencil.codeIndex.toNat = before.length := by
    rw [hstored.codeIndex, callOf, hstart]
    exact Nat.zero_add _
  have hlen : stencil.codeLen.toNat = p.2.stencil.code.length := by
    rw [hstored.codeLen]
    exact Nat.add_sub_cancel_left _ _
  have hinside : stencil.codeIndex.toNat + stencil.codeLen.toNat ≤ (codeOf kept).length := by
    rw [hcode, hindex, hlen]
    simp only [List.length_append]
    omega
  rw [Stencil.code, if_pos hinside, hindex, hlen, hcode, List.append_assoc, List.drop_left,
    List.take_left]

/-! ## The finished extraction -/

/-- The parts of a finished extraction, as the run leaves them. -/
theorem extracted_of_extract {members : List (Option Member)} {ex : Extraction}
    (h : extract checks demangle members allowedSymbols = pure ex) :
    ∃ e, Extracted checks demangle allowedSymbols (link demangle allowedSymbols checks members).2
        (link demangle allowedSymbols checks members) e ∧
      ex.allCode = e.allCode ∧ ex.rtSymbols = (link demangle allowedSymbols checks members).2 ∧
      ∀ name, ex.families.lookup name =
        (e.stencils.lookup name).map StencilFamilyBuilder.finalize := by
  obtain ⟨e, hrun, h⟩ := Run.bind_eq_pure.1 h
  obtain ⟨libName, -, h⟩ := Run.bind_eq_pure.1 h
  obtain ⟨rtSymbols, hvec, h⟩ := Run.bind_eq_pure.1 h
  obtain rfl := Run.pure_inj h
  have E := (extracted_new checks (link demangle allowedSymbols checks members).2).addMembers hrun
    (List.prefix_refl _)
  refine ⟨e, E, rfl, ?_, fun name => lookup_map _ _ _⟩
  have hvec := Run.ofOption_eq_pure.1 hvec
  rw [E.numbers.toVec] at hvec
  exact (Option.some.inj hvec).symm

/-- The slot of a stencil in the table of its function. -/
theorem slotHolds_of_filled {metadata : Metadata} {b : StencilFamilyBuilder} {c : Candidate}
    (F : b.Filled checks metadata (callsOf demangle allowedSymbols final c.stencil.name kept)) :
    b.family.MAX_REGS = metadata.maxRegs.toNat ∧
      ∀ stencil, b.family.stencils[(slotOf metadata.maxRegs c).2]? = some stencil →
        SlotHolds b.family.relocationData
          ((lastPlaced metadata.maxRegs kept (slotOf metadata.maxRegs c)).map
            (callOf demangle allowedSymbols final)) stencil := by
  have hmax : b.family.MAX_REGS = metadata.maxRegs.toNat :=
    (StencilFamilyBuilder.dimensions_of_bare F.bare).2.2.1
  refine ⟨hmax, ?_⟩
  intro stencil hstencil
  have hholds := F.slots _ _ hstencil
  rw [hmax, lastCall_callsOf] at hholds
  exact hholds

/-- The list of a stencil that survives is in its slot. -/
theorem inSlot_of_survives {members : List (Option Member)} {ex : Extraction}
    (h : extract checks demangle members allowedSymbols = pure ex) {c : Candidate}
    (hsurvives : Survives checks demangle allowedSymbols members c) :
    ∃ relocations, InSlot ex c relocations ∧
      relocationList demangle allowedSymbols ex.rtSymbols c = some relocations := by
  obtain ⟨e, E, hall, hrt, hfamilies⟩ := extracted_of_extract h
  rw [Survives] at hsurvives
  unfold InSlot
  rw [hall, hrt, E.code]
  generalize link demangle allowedSymbols checks members = state at E hsurvives ⊢
  obtain ⟨k, hlast, hkcode, hklist⟩ := hsurvives
  rw [lastKept_eq] at hlast
  obtain ⟨p, hplaced, rfl⟩ := Option.map_eq_some_iff.1 hlast
  obtain ⟨hp, hslot⟩ := lastPlaced_eq_some hplaced
  have hname : p.2.stencil.name = c.stencil.name := congrArg Prod.fst hslot
  obtain ⟨own, hown⟩ := Option.isSome_iff_exists.1 (E.listed p.2 (mem_placed hp).1)
  cases hb : e.stencils.lookup c.stencil.name with
  | none => exact absurd hname (E.absent _ hb p.2 (mem_placed hp).1)
  | some b =>
      obtain ⟨metadata, hregs, F⟩ := E.present _ _ hb
      obtain ⟨hmax, hholds⟩ := slotHolds_of_filled F
      rw [E.maxRegs] at hregs
      rw [hregs, Option.getD_some] at hplaced hslot
      -- the slot is inside the table, since the kept stencil's call filled it
      have hcall : callOf demangle allowedSymbols state.2 p ∈
          callsOf demangle allowedSymbols state.2 c.stencil.name state.1 :=
        List.mem_map_of_mem (List.mem_filter.2 ⟨hp, decide_eq_true hname⟩)
      have hinside := F.inside _ hcall
      have hindex : (callOf demangle allowedSymbols state.2 p).slot b.family.MAX_REGS =
          (slotOf metadata.maxRegs c).2 := by
        rw [hmax, ← hslot]
        rfl
      rw [hindex] at hinside
      have hstencil := List.getElem?_eq_getElem hinside
      have hstores := hholds _ hstencil
      rw [hplaced] at hstores
      obtain ⟨hpcode, hpread⟩ := read_of_stores hp hown hstores
      refine ⟨own, ⟨b.family, _, ?_, ?_, hkcode ▸ hpcode, hpread⟩, hklist ▸ hown⟩
      · rw [hfamilies, hb]
        rfl
      · rw [hmax]
        exact hstencil

/-- A stencil with code whose list is in its slot survives. -/
theorem survives_of_inSlot {members : List (Option Member)} {ex : Extraction}
    (h : extract checks demangle members allowedSymbols = pure ex) {c : Candidate}
    (hcode : c.stencil.code ≠ []) {relocations : List Relocation} (hin : InSlot ex c relocations)
    (hlist : relocationList demangle allowedSymbols ex.rtSymbols c = some relocations) :
    Survives checks demangle allowedSymbols members c := by
  obtain ⟨e, E, hall, hrt, hfamilies⟩ := extracted_of_extract h
  obtain ⟨family, stencil, hfamily, hslot, hstencil, hread⟩ := hin
  rw [hall, E.code] at hstencil
  rw [hrt] at hlist
  unfold Survives
  generalize link demangle allowedSymbols checks members = state at E hlist hstencil ⊢
  rw [hfamilies] at hfamily
  obtain ⟨b, hb, rfl⟩ := Option.map_eq_some_iff.1 hfamily
  obtain ⟨metadata, hregs, F⟩ := E.present _ _ hb
  obtain ⟨hmax, hholds⟩ := slotHolds_of_filled F
  have hholds := hholds stencil (by rw [← hslot, slotOf, ← hmax]; rfl)
  rw [E.maxRegs] at hregs
  rw [lastKept_eq, hregs, Option.getD_some]
  cases hlast : lastPlaced metadata.maxRegs state.1 (slotOf metadata.maxRegs c) with
  | none =>
      -- an empty slot has no code
      rw [hlast] at hholds
      obtain rfl := hholds
      exact absurd (List.eq_nil_of_length_eq_zero (Stencil.code_length hstencil)) hcode
  | some p =>
      rw [hlast] at hholds
      obtain ⟨hp, -⟩ := lastPlaced_eq_some hlast
      obtain ⟨own, hown⟩ := Option.isSome_iff_exists.1 (E.listed p.2 (mem_placed hp).1)
      obtain ⟨hpcode, hpread⟩ := read_of_stores hp hown hholds
      refine ⟨p.2, rfl, Option.some.inj (hpcode.symm.trans hstencil), ?_⟩
      rw [hown, hlist, ← hread]
      exact hpread.symm

/-- A stencil with code is stored exactly if it survives and its addends fit. -/
theorem stored_iff {members : List (Option Member)} {ex : Extraction}
    (h : extract checks demangle members allowedSymbols = pure ex) {c : Candidate}
    (hcode : c.stencil.code ≠ []) :
    Stored demangle allowedSymbols ex c ↔
      Survives checks demangle allowedSymbols members c ∧ AddendsFit c := by
  constructor
  · rintro ⟨relocations, hin, hlist, hrendered⟩
    refine ⟨survives_of_inSlot h hcode hin hlist, ?_⟩
    intro entry hentry
    obtain ⟨r, -, hr⟩ := hrendered entry hentry
    exact hr.fits
  · rintro ⟨hsurvives, hfits⟩
    obtain ⟨relocations, hin, hlist⟩ := inSlot_of_survives h hsurvives
    refine ⟨relocations, hin, hlist, ?_⟩
    intro entry hentry
    obtain ⟨r, hr, hexpressed⟩ := entry_of_relocationList hlist hentry
    exact ⟨r, hr, renders_of_expressed hexpressed (hfits entry hentry)⟩

theorem Stored.expressible {ex : Extraction} {c : Candidate}
    (h : Stored demangle allowedSymbols ex c) : Expressible demangle allowedSymbols c := by
  intro entry hentry
  obtain ⟨relocations, -, hlist, -⟩ := h
  obtain ⟨r, -, hexpressed⟩ := entry_of_relocationList hlist hentry
  obtain ⟨patch, hpatch, -⟩ := newRelocation_of_expressed hexpressed
  obtain ⟨target, htarget, -⟩ := Option.bind_eq_some_iff.1 hpatch
  rw [htarget]
  rfl

/-- **Extraction.** A run that ends well has dropped no stencil with code exactly if every one
survives, so that the last stencil kept for its slot has its code and its relocations, and its addends
fit twelve bits. -/
theorem noneDropped_iff {members : List (Option Member)} {ex : Extraction}
    (h : extract checks demangle members allowedSymbols = pure ex) :
    NoneDropped checks demangle allowedSymbols members ex ↔
      ∀ c ∈ candidates checks members, c.stencil.code ≠ [] →
        Survives checks demangle allowedSymbols members c ∧ AddendsFit c := by
  constructor
  · intro hall c hc hcode
    exact (stored_iff h hcode).1 (hall c hc hcode).2
  · intro hall c hc hcode
    have hstored := (stored_iff h hcode).2 (hall c hc hcode)
    exact ⟨hstored.expressible, hstored⟩

end Demangle

/-- A library with one stencil, that refers to `memcpy`. -/
def memcpyFile : ObjectFile :=
  let symbols : List ObjectSymbol :=
    [⟨.data, some LIB_NAME_SYMBOL, some 0, 0, 4⟩,
      ⟨.text, some "__patchouly__f____".toList, some 1, 0, 5⟩,
      ⟨.data, some "__patchouly__f__meta".toList, some 2, 0, 10⟩,
      ⟨.other, some "memcpy".toList, none, 0, 0⟩]
  let sections : List ObjectSection :=
    [⟨0, some [0x43, 0x61, 0x6C, 0x63], []⟩,
      ⟨0, some [0xE8, 0, 0, 0, 0], [(1, ⟨.pltRelative, .generic, 32, -4, .symbol 3⟩)]⟩,
      ⟨0, some [0, 0, 0, 0, 2, 0, 0, 0, 0, 0], []⟩]
  ⟨symbols, fun i => symbols[i]?, fun i => sections[i]?⟩

def memcpyArchive : List (Option Member) := [some ⟨[0x66, 0x2E, 0x6F], some memcpyFile⟩]

/-- What is extracted when `memcpy` is allowed. -/
def memcpyExtraction : Extraction where
  libName := "Calc".toList
  allCode := [0xE8, 0, 0, 0, 0]
  maxRegs := 2
  families := [("f".toList, ⟨0, 0, 2, 0, 0, [⟨0x00003FFC20810001⟩, .new], [⟨0, 5, 0⟩], []⟩)]
  rtSymbols := ["memcpy".toList]

theorem noneDropped_memcpy_iff :
    NoneDropped true id ["mem".toList] memcpyArchive memcpyExtraction ↔
      ∀ c ∈ candidates true memcpyArchive, c.stencil.code ≠ [] →
        Survives true id ["mem".toList] memcpyArchive c ∧ AddendsFit c :=
  noneDropped_iff rfl

/-- When it is not allowed, the run ends well and the library is empty. -/
theorem not_noneDropped : ¬ ∀ (checks : Bool) (demangle : Ident → Ident) (allowedSymbols : List Ident)
    (members : List (Option Member)) (ex : Extraction),
    extract checks demangle members allowedSymbols = pure ex →
      NoneDropped checks demangle allowedSymbols members ex := by
  intro hall
  have hok : extract true id memcpyArchive [] = pure ⟨"Calc".toList, [], 0, [], []⟩ := rfl
  have hnone := hall true id [] memcpyArchive _ hok
  obtain ⟨c, hc, hcode, entry, hentry, hforeign⟩ : ∃ c ∈ candidates true memcpyArchive,
      c.stencil.code ≠ [] ∧
        ∃ entry ∈ c.stencil.sect.relocations, reference id [] c entry.2 = none :=
    ⟨_, List.mem_cons_self, by decide, _, List.mem_cons_self, rfl⟩
  have hsome := (hnone c hc hcode).1 entry hentry
  rw [hforeign] at hsome
  cases hsome

end Patchouly.Build
