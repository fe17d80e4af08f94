import Patchouly.Build.Extraction

/-!
# Stencils that share a section

`get_data` cuts the code of a stencil out of its section by the address and the size of its symbol.
The relocation loop takes all relocations of the section, with their places in the section.

A stored stencil has its own relocations, at their places in the code, exactly when the section has no
others, the symbol stands at its beginning and the addends fit (`ownRelocations_iff`).
-/

set_option autoImplicit false

namespace Patchouly.Build

open Patchouly.Lib Patchouly.Core Patchouly.Macros

/-- The field of the relocation lies inside the symbol. -/
def InSymbol (sect : ObjectSection) (symbol : ObjectSymbol) (entry : Nat × ObjectRelocation) : Prop :=
  symbol.address ≤ sect.address + entry.1 ∧
    sect.address + entry.1 + entry.2.size.toNat / 8 ≤ symbol.address + symbol.size

instance (sect : ObjectSection) (symbol : ObjectSymbol) (entry : Nat × ObjectRelocation) :
    Decidable (InSymbol sect symbol entry) :=
  inferInstanceAs (Decidable (_ ∧ _))

/-- The relocations inside the symbol, with their places in it. -/
def symbolRelocations (sect : ObjectSection) (symbol : ObjectSymbol) :
    List (Nat × ObjectRelocation) :=
  (sect.relocations.filter fun entry => InSymbol sect symbol entry).map fun entry =>
    (sect.address + entry.1 - symbol.address, entry.2)

section Demangle

variable (demangle : Ident → Ident) (allowedSymbols : List Ident)

/-- The list of the symbol's own relocations, if all of them can be expressed. -/
def symbolRelocationList (table : List Ident) (symbol : ObjectSymbol) (c : Candidate) :
    Option (List Relocation) :=
  ((symbolRelocations c.stencil.sect symbol).mapM
    (expressed demangle allowedSymbols table c)).map Extractor.sortByOffset

/-- The slot of the stencil holds the list of the symbol's own relocations, each of them is rendered by an
entry, and all fields lie inside the code. -/
def OwnRelocations (ex : Extraction) (symbol : ObjectSymbol) (c : Candidate) : Prop :=
  ∃ family stencil relocations, ex.families.lookup c.stencil.name = some family ∧
    family.stencils[ioToIndex c.stencil.io.inputs c.stencil.io.outputs family.MAX_REGS
      c.stencil.wide]? = some stencil ∧
    (stencil.relocations family.typed).map validEntries = some relocations ∧
    symbolRelocationList demangle allowedSymbols ex.rtSymbols symbol c = some relocations ∧
    (∀ entry ∈ symbolRelocations c.stencil.sect symbol, ∃ r ∈ relocations,
      Renders demangle allowedSymbols ex.rtSymbols c entry r) ∧
    ∀ r ∈ relocations, r.offset.toNat + r.fieldLen ≤ c.stencil.code.length

variable {checks : Bool} {demangle allowedSymbols} {table : List Ident} {c : Candidate}

/-! ## Lists of entries -/

theorem place_of_expressed {entry : Nat × ObjectRelocation} {r : Relocation}
    (h : expressed demangle allowedSymbols table c entry = some r) :
    r.offset.toNat = entry.1 ∧ r.fieldLen = entry.2.size.toNat / 8 := by
  obtain ⟨patch, -, hnew⟩ := newRelocation_of_expressed h
  obtain ⟨hoffset, hsize⟩ := place_of_newRelocation hnew
  exact ⟨hoffset, by rw [Relocation.fieldLen, hsize]⟩

/-- The offsets of a sorted list of entries are the places of its relocations, up to their order. -/
theorem perm_offsets {entries : List (Nat × ObjectRelocation)} {relocations : List Relocation}
    (h : (entries.mapM (expressed demangle allowedSymbols table c)).map Extractor.sortByOffset =
      some relocations) :
    (relocations.map fun r => r.offset.toNat).Perm (entries.map Prod.fst) := by
  obtain ⟨relocs, hrelocs, rfl⟩ := Option.map_eq_some_iff.1 h
  have hoffsets : relocs.map (fun r => r.offset.toNat) = entries.map Prod.fst := by
    have hmap := mapM_eq_some_iff.1 hrelocs
    clear hrelocs h
    induction entries generalizing relocs with
    | nil =>
        obtain rfl := List.map_eq_nil_iff.1 hmap.symm
        rfl
    | cons entry entries ih =>
        cases relocs with
        | nil => cases hmap
        | cons r relocs =>
            rw [List.map_cons, List.map_cons] at hmap
            obtain ⟨hhead, htail⟩ := List.cons.inj hmap
            rw [List.map_cons, List.map_cons, (place_of_expressed hhead).1, ih relocs htail]
  rw [← hoffsets]
  exact (List.perm_insertionSort _ relocs).map _

/-! ## One section -/

section Section

variable {sect : ObjectSection} {symbol : ObjectSymbol}

/-- The symbol stands at the beginning of its section and has all of its relocations, or the section
has none. -/
def FillsSection (sect : ObjectSection) (symbol : ObjectSymbol) : Prop :=
  sect.relocations = [] ∨
    symbol.address = sect.address ∧ ∀ entry ∈ sect.relocations, InSymbol sect symbol entry

theorem FillsSection.symbolRelocations (h : FillsSection sect symbol) :
    symbolRelocations sect symbol = sect.relocations := by
  rw [Build.symbolRelocations]
  rcases h with hnil | ⟨haddress, hin⟩
  · rw [hnil]
    rfl
  · rw [List.filter_eq_self.2 fun entry hentry => decide_eq_true (hin entry hentry), haddress]
    simp

/-- Moving `n` places back by `d` each lowers their sum by `n * d`. -/
theorem sum_places (hle : sect.address ≤ symbol.address) (entries : List (Nat × ObjectRelocation))
    (hin : ∀ entry ∈ entries, InSymbol sect symbol entry) :
    (entries.map fun entry => sect.address + entry.1 - symbol.address).sum +
      entries.length * (symbol.address - sect.address) = (entries.map Prod.fst).sum := by
  induction entries with
  | nil => simp
  | cons entry entries ih =>
      have hentry := (hin entry List.mem_cons_self).1
      have htail := ih fun e he => hin e (List.mem_cons_of_mem entry he)
      rw [List.map_cons, List.map_cons, List.sum_cons, List.sum_cons, List.length_cons,
        Nat.add_one_mul]
      omega

/-- The section's places are the symbol's only if the symbol fills the section. -/
theorem fillsSection_of_perm (hle : sect.address ≤ symbol.address)
    (h : (sect.relocations.map Prod.fst).Perm ((symbolRelocations sect symbol).map Prod.fst)) :
    FillsSection sect symbol := by
  have hlen := h.length_eq
  rw [symbolRelocations, List.length_map, List.length_map, List.length_map] at hlen
  have hin : ∀ entry ∈ sect.relocations, InSymbol sect symbol entry := by
    intro entry hentry
    exact of_decide_eq_true (List.length_filter_eq_length_iff.1 hlen.symm entry hentry)
  have hsum := h.sum_nat
  rw [symbolRelocations, List.filter_eq_self.2 fun entry hentry => decide_eq_true (hin entry hentry),
    List.map_map] at hsum
  have hplaces := sum_places hle sect.relocations hin
  have hmoved : sect.relocations.length * (symbol.address - sect.address) = 0 := by
    rw [hsum] at hplaces
    exact Nat.add_left_cancel hplaces
  rcases Nat.mul_eq_zero.1 hmoved with hzero | hzero
  · exact Or.inl (List.length_eq_zero_iff.1 hzero)
  · exact Or.inr ⟨Nat.le_antisymm (Nat.sub_eq_zero_iff_le.1 hzero) hle, hin⟩

/-- What a stencil's symbol says about its section and its code. -/
theorem stencilSymbol_range {file : ObjectFile} {stencil : StencilSymbol}
    (h : stencilSymbol checks file symbol = some (some stencil)) :
    stencil.sect.address ≤ symbol.address ∧ stencil.code.length = symbol.size := by
  rw [stencilSymbol] at h
  split at h
  · cases h
  · simp only [Option.bind_eq_bind, Option.pure_def] at h
    obtain ⟨parsed, -, h⟩ := Option.bind_eq_some_iff.1 h
    rcases parsed with _ | ⟨name, wide, io⟩
    · cases h
    · cases hdata : getData file symbol with
      | none => simp [hdata] at h
      | some found =>
          obtain ⟨sect, code⟩ := found
          simp only [hdata, Option.some.injEq] at h
          obtain rfl := h
          simp only [getData, Option.bind_eq_bind, Option.pure_def] at hdata
          obtain ⟨index, -, hdata⟩ := Option.bind_eq_some_iff.1 hdata
          obtain ⟨s, -, hdata⟩ := Option.bind_eq_some_iff.1 hdata
          obtain ⟨data, hrange, hdata⟩ := Option.bind_eq_some_iff.1 hdata
          obtain ⟨rfl, rfl⟩ := Prod.mk.inj (Option.some.inj hdata)
          simp only [ObjectSection.dataRange, Option.bind_eq_bind] at hrange
          obtain ⟨bytes, -, hrange⟩ := Option.bind_eq_some_iff.1 hrange
          split at hrange
          · next hin =>
            obtain rfl := Option.some.inj hrange
            refine ⟨hin.1, ?_⟩
            rw [List.length_take, List.length_drop]
            omega
          · cases hrange

end Section

/-! ## The stored list -/

/-- **Relocations of a stored stencil.** The slot of a stencil has the relocations of its own symbol
exactly when the symbol fills its section and the addends fit twelve bits. -/
theorem ownRelocations_iff {members : List (Option Member)} {ex : Extraction}
    (h : extract checks demangle members allowedSymbols = pure ex) {file : ObjectFile}
    {symbol : ObjectSymbol} {stencil : StencilSymbol}
    (hstencil : stencilSymbol checks file symbol = some (some stencil))
    (hlast : lastKept (link demangle allowedSymbols checks members).1 ⟨file, stencil⟩ =
      some ⟨file, stencil⟩) :
    OwnRelocations demangle allowedSymbols ex symbol ⟨file, stencil⟩ ↔
      FillsSection stencil.sect symbol ∧ AddendsFit ⟨file, stencil⟩ := by
  obtain ⟨hle, hlen⟩ := stencilSymbol_range hstencil
  obtain ⟨stored, ⟨family, s, hfamily, hslot, -, hread⟩, hlist⟩ :=
    inSlot_of_survives h ⟨_, hlast, rfl, rfl⟩
  constructor
  · rintro ⟨family', s', relocations, hfamily', hslot', hread', hown, hrendered, -⟩
    obtain rfl := Option.some.inj (hfamily.symm.trans hfamily')
    obtain rfl := Option.some.inj (hslot.symm.trans hslot')
    obtain rfl := Option.some.inj (hread.symm.trans hread')
    -- one list is sorted from both
    have hfills := fillsSection_of_perm hle ((perm_offsets hlist).symm.trans (perm_offsets hown))
    rw [hfills.symbolRelocations] at hrendered
    refine ⟨hfills, ?_⟩
    intro entry hentry
    obtain ⟨r, -, hr⟩ := hrendered entry hentry
    exact hr.fits
  · rintro ⟨hfills, hfits⟩
    have hown : symbolRelocationList demangle allowedSymbols ex.rtSymbols symbol
        ⟨file, stencil⟩ = some stored := by
      rw [symbolRelocationList, hfills.symbolRelocations]
      exact hlist
    refine ⟨family, s, stored, hfamily, hslot, hread, hown, ?_, ?_⟩
    · rw [hfills.symbolRelocations]
      intro entry hentry
      obtain ⟨r, hr, hexpressed⟩ := entry_of_relocationList hlist hentry
      exact ⟨r, hr, renders_of_expressed hexpressed (hfits entry hentry)⟩
    intro r hr
    obtain ⟨relocs, hrelocs, rfl⟩ := Option.map_eq_some_iff.1 hlist
    rw [Extractor.sortByOffset, List.mem_insertionSort] at hr
    obtain ⟨entry, hentry, hexpressed⟩ := source_of_mapM hrelocs hr
    obtain ⟨hoffset, hfield⟩ := place_of_expressed hexpressed
    rcases hfills with hnil | ⟨haddress, hin⟩
    · rw [hnil] at hentry
      cases hentry
    · have hend := (hin entry hentry).2
      rw [hoffset, hfield, hlen]
      omega

end Demangle

/-- The one relocation of the file belongs to its one stencil. -/
theorem ownRelocations_memcpy :
    OwnRelocations id ["mem".toList] memcpyExtraction
      ⟨.text, some "__patchouly__f____".toList, some 1, 0, 5⟩
      ⟨memcpyFile, "f____".toList, "f".toList, false, ⟨[], []⟩,
        ⟨0, some [0xE8, 0, 0, 0, 0], [(1, ⟨.pltRelative, .generic, 32, -4, .symbol 3⟩)]⟩,
        [0xE8, 0, 0, 0, 0]⟩ := by
  have hextract : extract true id memcpyArchive ["mem".toList] = pure memcpyExtraction := rfl
  refine (ownRelocations_iff hextract rfl rfl).2 ⟨Or.inr ⟨rfl, ?_⟩, ?_⟩
  · decide
  · intro entry hentry
    obtain rfl := List.mem_singleton.1 hentry
    decide

/-- A library whose two stencils, a call of `memcpy` each, share one section. -/
def sharedFile : ObjectFile :=
  let symbols : List ObjectSymbol :=
    [⟨.data, some LIB_NAME_SYMBOL, some 0, 0, 4⟩,
      ⟨.text, some "__patchouly__f____".toList, some 1, 0, 5⟩,
      ⟨.text, some "__patchouly__g____".toList, some 1, 5, 5⟩,
      ⟨.data, some "__patchouly__f__meta".toList, some 2, 0, 10⟩,
      ⟨.data, some "__patchouly__g__meta".toList, some 2, 0, 10⟩,
      ⟨.other, some "memcpy".toList, none, 0, 0⟩]
  let sections : List ObjectSection :=
    [⟨0, some [0x43, 0x61, 0x6C, 0x63], []⟩,
      ⟨0, some [0xE8, 0, 0, 0, 0, 0xE8, 0, 0, 0, 0],
        [(1, ⟨.pltRelative, .generic, 32, -4, .symbol 5⟩),
          (6, ⟨.pltRelative, .generic, 32, -4, .symbol 5⟩)]⟩,
      ⟨0, some [0, 0, 0, 0, 2, 0, 0, 0, 0, 0], []⟩]
  ⟨symbols, fun i => symbols[i]?, fun i => sections[i]?⟩

def sharedArchive : List (Option Member) := [some ⟨[0x66, 0x2E, 0x6F], some sharedFile⟩]

/-- Both stencils have both relocations. -/
def sharedExtraction : Extraction where
  libName := "Calc".toList
  allCode := [0xE8, 0, 0, 0, 0, 0xE8, 0, 0, 0, 0]
  maxRegs := 2
  families :=
    [("g".toList, ⟨0, 0, 2, 0, 0, [⟨0x3FFC20810001⟩, ⟨0x3FFC20810006⟩, .new], [⟨5, 5, 0⟩], []⟩),
      ("f".toList, ⟨0, 0, 2, 0, 0, [⟨0x3FFC20810001⟩, ⟨0x3FFC20810006⟩, .new], [⟨0, 5, 0⟩], []⟩)]
  rtSymbols := ["memcpy".toList]

/-- The second call is patched behind the end of the first stencil. -/
theorem not_ownRelocations : ¬ ∀ (checks : Bool) (demangle : Ident → Ident)
    (allowedSymbols : List Ident) (members : List (Option Member)) (ex : Extraction) (file : ObjectFile)
    (symbol : ObjectSymbol) (stencil : StencilSymbol),
    extract checks demangle members allowedSymbols = pure ex →
      stencilSymbol checks file symbol = some (some stencil) →
      lastKept (link demangle allowedSymbols checks members).1 ⟨file, stencil⟩ = some ⟨file, stencil⟩ →
      OwnRelocations demangle allowedSymbols ex symbol ⟨file, stencil⟩ := by
  intro hall
  have hextract : extract true id sharedArchive ["mem".toList] = pure sharedExtraction := rfl
  have hown := hall true id ["mem".toList] sharedArchive sharedExtraction sharedFile
    ⟨.text, some "__patchouly__f____".toList, some 1, 0, 5⟩ _ hextract rfl rfl
  obtain ⟨family, stencil, relocations, hfamily, hslot, hread, -, -, hinside⟩ := hown
  obtain rfl := Option.some.inj hfamily
  obtain rfl := Option.some.inj hslot
  obtain rfl := Option.some.inj hread
  have hend := hinside ⟨0x3FFC20810006⟩ (List.mem_cons_of_mem _ List.mem_cons_self)
  exact absurd hend (by decide)

end Patchouly.Build
