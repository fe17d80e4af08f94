import Patchouly.Build.Extract

/-!
# What a run of the extractor keeps

A relocation of a stencil can be expressed when it names an undefined symbol that is one of the
stencil's own or an allowed runtime symbol (`reference`). The loop skips a stencil with any other
relocation, and goes on without a word.

`link` is what a run keeps: the stencils whose relocations can all be expressed, and the runtime
symbols in the order of their first use. The extractor's state holds exactly these
(`Extracted.addMembers`).
-/

set_option autoImplicit false

namespace Patchouly.Build

open Patchouly.Lib Patchouly.Core Patchouly.Macros

/-! ## Stencils and references -/

/-- A stencil of the archive, with the file it is in. -/
structure Candidate where
  file : ObjectFile
  stencil : StencilSymbol

/-- The object files of an archive without errors. -/
def objectFiles (members : List (Option Member)) : List ObjectFile :=
  members.filterMap fun member =>
    member.bind fun member => if member.isObject then member.file else none

/-- The text symbols of a file that name a stencil. -/
def candidatesOf (checks : Bool) (file : ObjectFile) (symbols : List ObjectSymbol) :
    List Candidate :=
  symbols.filterMap fun symbol =>
    if symbol.kind = .text then
      (stencilSymbol checks file symbol).join.map fun stencil => ⟨file, stencil⟩
    else none

def candidates (checks : Bool) (members : List (Option Member)) : List Candidate :=
  (objectFiles members).flatMap fun file => candidatesOf checks file file.symbols

/-- The addend fits the twelve bits of an entry. -/
def ObjectRelocation.AddendFits (self : ObjectRelocation) : Prop :=
  -2 ^ 11 ≤ self.addend ∧ self.addend < 2 ^ 11

instance (relocation : ObjectRelocation) : Decidable relocation.AddendFits :=
  inferInstanceAs (Decidable (_ ∧ _))

/-- What a relocation refers to. -/
inductive Reference where
  | own (patch : PatchType)
  | runtime (name : Ident)
  deriving DecidableEq

/-- A runtime symbol is patched by its number. -/
def Reference.patch (table : List Ident) : Reference → Option PatchType
  | .own patch => some patch
  | .runtime name =>
      if name ∈ table then some (.runtime (BitVec.ofNat 16 (table.idxOf name))) else none

/-- What the entry of a patch type patches. -/
def PatchType.info : PatchType → PatchInfo
  | .hole i => .hole i
  | .stack i => .stack i
  | .target i => .target i
  | .runtime i => .runtime i
  | .next => .target 0

section Demangle

variable (demangle : Ident → Ident) (allowedSymbols : List Ident)

/-- The reference of a relocation that can be expressed. -/
def reference (c : Candidate) (info : ObjectRelocation) : Option Reference :=
  match info.target with
  | .other => none
  | .symbol target => do
      let sym ← c.file.symbolByIndex target
      if sym.sectionIndex.isSome then none
      else do
        let reloc ← sym.name
        match ← getPatchType c.stencil.name reloc with
        | some patch => return .own patch
        | none =>
            if RuntimeSymbols.allows demangle allowedSymbols reloc then some (.runtime reloc)
            else none

/-- A relocation with runtime symbols numbered by `table`. -/
def expressed (table : List Ident) (c : Candidate) (entry : Nat × ObjectRelocation) :
    Option Relocation := do
  let target ← reference demangle allowedSymbols c entry.2
  let patch ← target.patch table
  (newRelocation entry.1 entry.2 patch).toOption

/-- The complete relocation list of a stencil, if all of it can be expressed. -/
def relocationList (table : List Ident) (c : Candidate) : Option (List Relocation) :=
  (c.stencil.sect.relocations.mapM (expressed demangle allowedSymbols table c)).map
    Extractor.sortByOffset

/-- The entry says what its relocation says. -/
structure Renders (table : List Ident) (c : Candidate) (entry : Nat × ObjectRelocation)
    (reloc : Relocation) : Prop where
  patch : ((reference demangle allowedSymbols c entry.2).bind (Reference.patch table)).map
    PatchType.info = reloc.patchInfo
  offset : reloc.offset.toNat = entry.1
  encoding : reloc.encoding = .generic ∧ entry.2.encoding = .generic ∨
    reloc.encoding = .x86Signed ∧ entry.2.encoding = .x86Signed
  relative : reloc.relative = decide (entry.2.kind ≠ .absolute)
  size : reloc.size = entry.2.size
  addend : reloc.addend.toInt = entry.2.addend

/-- Whether the relocations of a stencil can all be expressed, and the runtime symbols after them.
Sixteen bits number the symbols. -/
def walk : List Ident → List (Option Reference) → Bool × List Ident
  | table, [] => (true, table)
  | table, none :: _ => (false, table)
  | table, some (.own _) :: refs => walk table refs
  | table, some (.runtime name) :: refs =>
      if table.length < 2 ^ 16 then walk (record table name) refs else (false, table)

def references (c : Candidate) : List (Option Reference) :=
  c.stencil.sect.relocations.map fun entry => reference demangle allowedSymbols c entry.2

/-- One stencil is kept or skipped. -/
def linkStep (state : List Candidate × List Ident) (c : Candidate) :
    List Candidate × List Ident :=
  let (complete, table) := walk state.2 (references demangle allowedSymbols c)
  (if complete then state.1 ++ [c] else state.1, table)

/-- What a run keeps of more stencils. -/
def linkAll (state : List Candidate × List Ident) (cs : List Candidate) :
    List Candidate × List Ident :=
  cs.foldl (linkStep demangle allowedSymbols) state

/-- The stencils that a run keeps, and its runtime symbols. -/
def link (checks : Bool) (members : List (Option Member)) : List Candidate × List Ident :=
  linkAll demangle allowedSymbols ([], []) (candidates checks members)

end Demangle

/-! ## Entries -/

section Packed

variable (offset : U16) (encoding : BitVec 7) (relative : Bool) (size : U8) (addend : BitVec 12)
  (kind : BitVec 4) (id : U16)

theorem encoding_packRelocation :
    (packRelocation offset encoding relative size addend kind id).encoding =
      .fromBits (encoding.setWidth 8) := by
  have henc : (packRelocation offset encoding relative size addend kind id).bits.extractLsb' 16 7 =
      encoding := by
    apply BitVec.eq_of_getLsbD_eq
    intro i hi
    simp only [packRelocation, BitVec.getLsbD_extractLsb', BitVec.getLsbD_append, hi, decide_true,
      Bool.true_and]
    rw [if_neg (by omega), if_pos (by omega)]
    simp
  rw [Relocation.encoding, henc]

theorem offset_packRelocation :
    (packRelocation offset encoding relative size addend kind id).offset = offset := by
  apply BitVec.eq_of_getLsbD_eq
  intro i hi
  simp only [packRelocation, Relocation.offset, BitVec.getLsbD_extractLsb', BitVec.getLsbD_append,
    hi, decide_true, Bool.true_and]
  rw [if_pos (by omega), Nat.zero_add]

theorem size_packRelocation :
    (packRelocation offset encoding relative size addend kind id).size = size := by
  apply BitVec.eq_of_getLsbD_eq
  intro i hi
  simp only [packRelocation, Relocation.size, BitVec.getLsbD_extractLsb', BitVec.getLsbD_append,
    hi, decide_true, Bool.true_and]
  rw [if_neg (by omega), if_neg (by omega), if_neg (by omega), if_pos (by omega)]
  congr 1
  omega

theorem addend_packRelocation :
    (packRelocation offset encoding relative size addend kind id).addend = addend.signExtend 16 := by
  have hbits : (packRelocation offset encoding relative size addend kind id).bits.extractLsb' 32 12 =
      addend := by
    apply BitVec.eq_of_getLsbD_eq
    intro i hi
    simp only [packRelocation, BitVec.getLsbD_extractLsb', BitVec.getLsbD_append, hi, decide_true,
      Bool.true_and]
    rw [if_neg (by omega), if_neg (by omega), if_neg (by omega), if_neg (by omega),
      if_pos (by omega)]
    congr 1
    omega
  rw [Relocation.addend, hbits]

theorem relative_packRelocation :
    (packRelocation offset encoding relative size addend kind id).relative = relative := by
  simp only [packRelocation, Relocation.relative, BitVec.getLsbD_append]
  rw [if_neg (by omega), if_neg (by omega), if_pos (by omega)]
  simp

theorem patchId_packRelocation :
    (packRelocation offset encoding relative size addend kind id).patchId = id := by
  apply BitVec.eq_of_getLsbD_eq
  intro i hi
  simp only [packRelocation, Relocation.patchId, BitVec.getLsbD_extractLsb', BitVec.getLsbD_append,
    hi, decide_true, Bool.true_and]
  rw [if_neg (by omega), if_neg (by omega), if_neg (by omega), if_neg (by omega),
    if_neg (by omega), if_neg (by omega)]
  congr 1
  omega

theorem patchKind_packRelocation :
    (packRelocation offset encoding relative size addend kind id).patchKind =
      .fromBits (kind.setWidth 8) := by
  have hkind : (packRelocation offset encoding relative size addend kind id).bits.extractLsb' 44 4 =
      kind := by
    apply BitVec.eq_of_getLsbD_eq
    intro i hi
    simp only [packRelocation, BitVec.getLsbD_extractLsb', BitVec.getLsbD_append, hi, decide_true,
      Bool.true_and]
    rw [if_neg (by omega), if_neg (by omega), if_neg (by omega), if_neg (by omega),
      if_neg (by omega), if_pos (by omega)]
    congr 1
    omega
  rw [Relocation.patchKind, hkind]

end Packed

/-- What `new_relocation` packs. -/
theorem newRelocation_eq_ok {offset : Nat} {info : ObjectRelocation} {patch : PatchType}
    {reloc : Relocation} (h : newRelocation offset info patch = .ok reloc) :
    ∃ o encoding addend, tryInto 16 offset = some o ∧
      (encoding = 1 ∧ info.encoding = .generic ∨ encoding = 2 ∧ info.encoding = .x86Signed) ∧
      checkedAddend info.addend = .ok addend ∧
      reloc = packRelocation o encoding (decide (info.kind ≠ .absolute)) info.size addend
        patch.kindAndId.1 patch.kindAndId.2 := by
  rw [newRelocation] at h
  cases hoff : tryInto 16 offset with
  | none =>
      rw [hoff] at h
      cases h
  | some o =>
      rw [hoff] at h
      cases hadd : checkedAddend info.addend with
      | error e =>
          rw [hadd] at h
          cases henc : info.encoding <;> cases hkind : info.kind <;>
            simp [henc, hkind, bind, Except.bind] at h
      | ok addend =>
          rw [hadd] at h
          -- one case for each encoding and kind that has a counterpart
          cases henc : info.encoding <;> cases hkind : info.kind <;>
            simp [henc, hkind, bind, Except.bind, pure, Except.pure] at h
          all_goals
            refine ⟨o, _, addend, rfl, ?_, rfl, h.symm⟩
            simp

/-- An extracted entry is encoded as its relocation is. -/
theorem encoding_of_newRelocation {offset : Nat} {info : ObjectRelocation} {patch : PatchType}
    {reloc : Relocation} (h : newRelocation offset info patch = .ok reloc) :
    reloc.encoding = .generic ∧ info.encoding = .generic ∨
      reloc.encoding = .x86Signed ∧ info.encoding = .x86Signed := by
  obtain ⟨o, encoding, addend, -, henc, -, rfl⟩ := newRelocation_eq_ok h
  rw [encoding_packRelocation]
  rcases henc with ⟨rfl, henc⟩ | ⟨rfl, henc⟩
  · exact Or.inl ⟨by decide, henc⟩
  · exact Or.inr ⟨by decide, henc⟩

/-- An extracted entry is not an end marker. -/
theorem isInvalid_of_newRelocation {offset : Nat} {info : ObjectRelocation} {patch : PatchType}
    {reloc : Relocation} (h : newRelocation offset info patch = .ok reloc) :
    reloc.isInvalid = false := by
  rw [Relocation.isInvalid]
  rcases encoding_of_newRelocation h with ⟨henc, -⟩ | ⟨henc, -⟩ <;> rw [henc] <;> rfl

/-- An extracted entry has the place and the size of its relocation. -/
theorem place_of_newRelocation {offset : Nat} {info : ObjectRelocation} {patch : PatchType}
    {reloc : Relocation} (h : newRelocation offset info patch = .ok reloc) :
    reloc.offset.toNat = offset ∧ reloc.size = info.size := by
  obtain ⟨o, encoding, addend, ho, -, -, rfl⟩ := newRelocation_eq_ok h
  rw [offset_packRelocation, size_packRelocation]
  exact ⟨tryInto_eq_some ho, rfl⟩

/-- An extracted entry patches what its symbol is, relative to its place unless it is absolute. -/
theorem info_of_newRelocation {offset : Nat} {info : ObjectRelocation} {patch : PatchType}
    {reloc : Relocation} (h : newRelocation offset info patch = .ok reloc) :
    reloc.patchInfo = some patch.info ∧ reloc.relative = decide (info.kind ≠ .absolute) := by
  obtain ⟨o, encoding, addend, -, -, -, rfl⟩ := newRelocation_eq_ok h
  refine ⟨?_, relative_packRelocation _ _ _ _ _ _ _⟩
  rw [Relocation.patchInfo, patchKind_packRelocation, patchId_packRelocation]
  cases patch <;> rfl

/-- An extracted entry has the addend of its relocation if that fits. -/
theorem addend_of_newRelocation {offset : Nat} {info : ObjectRelocation} {patch : PatchType}
    {reloc : Relocation} (h : newRelocation offset info patch = .ok reloc) (hfits : info.AddendFits) :
    reloc.addend.toInt = info.addend := by
  obtain ⟨o, encoding, addend, -, -, hadd, rfl⟩ := newRelocation_eq_ok h
  have hcut : addend = BitVec.ofInt 12 info.addend := by
    rw [checkedAddend] at hadd
    split at hadd
    · cases hadd
    · split at hadd
      · cases hadd
      · exact (Except.ok.inj hadd).symm
  have hread : (packRelocation o encoding (decide (info.kind ≠ .absolute)) info.size addend
      patch.kindAndId.1 patch.kindAndId.2).addend.toInt = info.addend.bmod (2 ^ 12) := by
    rw [addend_packRelocation, BitVec.toInt_signExtend_of_le (by decide), hcut, BitVec.toInt_ofInt]
  obtain ⟨hlow, hhigh⟩ := hfits
  rw [hread]
  exact Int.bmod_eq_of_le (by omega) (by omega)

/-- The addend of an entry is a number of twelve bits. -/
theorem addend_range (reloc : Relocation) :
    -2 ^ 11 ≤ reloc.addend.toInt ∧ reloc.addend.toInt < 2 ^ 11 := by
  rw [Relocation.addend, BitVec.toInt_signExtend_of_le (by decide)]
  exact ⟨BitVec.le_toInt _, BitVec.toInt_lt⟩

section Expressed

variable {demangle : Ident → Ident} {allowedSymbols table : List Ident} {c : Candidate}
  {entry : Nat × ObjectRelocation} {reloc : Relocation}

theorem newRelocation_of_expressed
    (h : expressed demangle allowedSymbols table c entry = some reloc) :
    ∃ patch, (reference demangle allowedSymbols c entry.2).bind (Reference.patch table) = some patch ∧
      newRelocation entry.1 entry.2 patch = .ok reloc := by
  simp only [expressed, Option.bind_eq_bind] at h
  obtain ⟨target, htarget, h⟩ := Option.bind_eq_some_iff.1 h
  obtain ⟨patch, hpatch, h⟩ := Option.bind_eq_some_iff.1 h
  refine ⟨patch, by rw [htarget, Option.bind_some, hpatch], ?_⟩
  cases hnew : newRelocation entry.1 entry.2 patch with
  | error e =>
      rw [hnew] at h
      cases h
  | ok new =>
      rw [hnew] at h
      rw [Option.some.inj h]

/-- An entry that the loop makes of a relocation renders it if its addend fits. -/
theorem renders_of_expressed (h : expressed demangle allowedSymbols table c entry = some reloc)
    (hfits : entry.2.AddendFits) : Renders demangle allowedSymbols table c entry reloc := by
  obtain ⟨patch, hpatch, hnew⟩ := newRelocation_of_expressed h
  obtain ⟨hinfo, hrelative⟩ := info_of_newRelocation hnew
  obtain ⟨hoffset, hsize⟩ := place_of_newRelocation hnew
  exact
    { patch := by rw [hpatch, hinfo]; rfl
      offset := hoffset
      encoding := encoding_of_newRelocation hnew
      relative := hrelative
      size := hsize
      addend := addend_of_newRelocation hnew hfits }

/-- Only an addend that fits can be rendered. -/
theorem Renders.fits (h : Renders demangle allowedSymbols table c entry reloc) :
    entry.2.AddendFits := by
  rw [ObjectRelocation.AddendFits, ← h.addend]
  exact addend_range reloc

end Expressed

/-! ## Runtime symbols -/

/-- The table numbers the symbols in the order of `table`. -/
structure RuntimeSymbols.Numbers (table : List Ident) (rt : RuntimeSymbols) : Prop where
  symbols : rt.symbols = table.mapIdx fun i name => (name, BitVec.ofNat 16 i)
  le : table.length ≤ 2 ^ 16

namespace RuntimeSymbols

theorem numbers_new (allowList : List Ident) : (new allowList).Numbers [] := ⟨rfl, by simp⟩

variable {demangle : Ident → Ident} {table : List Ident} {rt : RuntimeSymbols} {name : Ident}

theorem Numbers.length (N : rt.Numbers table) : rt.symbols.length = table.length := by
  rw [N.symbols, List.length_mapIdx]

/-- There is no number left. -/
theorem Numbers.addSymbol_full (N : rt.Numbers table) (h : 2 ^ 16 ≤ table.length) :
    rt.addSymbol demangle name = none := by
  have hnone : tryInto 16 rt.symbols.length = none := by
    rw [N.length, tryInto, if_neg (by omega)]
  rw [addSymbol]
  split
  · rw [hnone]
    rfl
  · rfl

/-- An allowed symbol gets its number at its first use and keeps it. -/
theorem Numbers.addSymbol (N : rt.Numbers table) (hlt : table.length < 2 ^ 16)
    (hallow : allows demangle rt.allowList name = true) :
    ∃ rt', rt.addSymbol demangle name =
        some (BitVec.ofNat 16 ((record table name).idxOf name), rt') ∧
      rt'.Numbers (record table name) ∧ rt'.allowList = rt.allowList := by
  have hsome : tryInto 16 rt.symbols.length = some (BitVec.ofNat 16 table.length) := by
    rw [N.length, tryInto, if_pos hlt]
  -- the number that is looked up is the position in the table
  have hlookup := lookup_mapIdx (BitVec.ofNat 16) table name
  rw [← N.symbols] at hlookup
  rw [RuntimeSymbols.addSymbol, if_pos hallow, hsome, Option.bind_eq_bind, Option.bind_some, hlookup]
  by_cases hmem : name ∈ table
  · have hrecord : record table name = table := if_pos hmem
    rw [if_pos hmem, hrecord]
    exact ⟨rt, rfl, N, rfl⟩
  · have hrecord : record table name = table ++ [name] := if_neg hmem
    rw [if_neg hmem, hrecord]
    have hidx : (table ++ [name]).idxOf name = table.length := by
      rw [List.idxOf_append_of_notMem hmem]
      simp
    rw [hidx]
    refine ⟨_, rfl, ⟨?_, ?_⟩, rfl⟩
    · rw [N.symbols, List.mapIdx_concat]
    · rw [List.length_append, List.length_singleton]
      omega

/-- The loop of `Vec::from` puts every name at its index, when no index comes twice. -/
theorem fill_spec {entries : List (Ident × U16)} {v : List Ident}
    (hnodup : (entries.map (·.2)).Nodup) (hlt : ∀ e ∈ entries, e.2.toNat < v.length) :
    ∃ v', entries.foldlM (fun (v : List Ident) ((name, index) : Ident × U16) =>
        if index.toNat < v.length then some (v.set index.toNat name) else none) v = some v' ∧
      v'.length = v.length ∧ (∀ e ∈ entries, v'[e.2.toNat]? = some e.1) ∧
        ∀ k, (∀ e ∈ entries, e.2.toNat ≠ k) → v'[k]? = v[k]? := by
  induction entries generalizing v with
  | nil => exact ⟨v, rfl, rfl, by simp, fun _ _ => rfl⟩
  | cons e entries ih =>
      obtain ⟨name, index⟩ := e
      obtain ⟨hfresh, hnodup⟩ := List.nodup_cons.1 hnodup
      have hindex : index.toNat < v.length := hlt _ List.mem_cons_self
      obtain ⟨v', hrun, hlen, hset, hkeep⟩ := ih (v := v.set index.toNat name) hnodup (by
        intro e he
        rw [List.length_set]
        exact hlt e (List.mem_cons_of_mem _ he))
      refine ⟨v', ?_, hlen.trans List.length_set, ?_, ?_⟩
      · rw [List.foldlM_cons]
        simp only [if_pos hindex, Option.bind_eq_bind, Option.bind_some]
        exact hrun
      · intro e he
        rcases List.mem_cons.1 he with rfl | he
        · rw [hkeep index.toNat, List.getElem?_set_self hindex]
          intro e he heq
          exact hfresh (List.mem_map.2 ⟨e, he, BitVec.eq_of_toNat_eq heq⟩)
        · exact hset e he
      · intro k hk
        rw [hkeep k fun e he => hk e (List.mem_cons_of_mem _ he),
          List.getElem?_set_ne (hk _ List.mem_cons_self)]

/-- **The vector made from the table** is the names in the order of their numbers, in whatever order the
map is read. -/
theorem Numbers.toVec_of_perm (N : rt.Numbers table) {entries : List (Ident × U16)}
    (h : entries.Perm rt.symbols) : RuntimeSymbols.toVec ⟨rt.allowList, entries⟩ = some table := by
  have hlen : entries.length = table.length := by rw [h.length_eq, N.length]
  have hle := N.le
  have hmem : ∀ e, e ∈ entries ↔ table[e.2.toNat]? = some e.1 := by
    rintro ⟨name, index⟩
    rw [h.mem_iff, N.symbols, List.mem_mapIdx]
    constructor
    · rintro ⟨i, hi, he⟩
      obtain ⟨rfl, rfl⟩ := Prod.mk.inj he
      rw [toNat_ofNat_of_lt (by omega), List.getElem?_eq_getElem hi]
    · intro he
      obtain ⟨hi, hname⟩ := List.getElem?_eq_some_iff.1 he
      exact ⟨_, hi, Prod.ext hname (by rw [BitVec.ofNat_toNat, BitVec.setWidth_eq])⟩
  have hnodup : (entries.map (·.2)).Nodup := by
    have hindices : rt.symbols.map (·.2) = (List.range table.length).map (BitVec.ofNat 16) := by
      rw [N.symbols]
      apply List.ext_getElem <;> simp
    rw [(h.map _).nodup_iff, hindices]
    apply List.Nodup.map_on _ List.nodup_range
    intro i hi j hj hij
    rw [List.mem_range] at hi hj
    rw [← toNat_ofNat_of_lt (w := 16) (n := i) (by omega), hij, toNat_ofNat_of_lt (by omega)]
  obtain ⟨v, hrun, hvlen, hset, -⟩ := fill_spec (v := List.replicate entries.length []) hnodup (by
    intro e he
    rw [List.length_replicate, hlen]
    exact (List.getElem?_eq_some_iff.1 ((hmem e).1 he)).1)
  rw [List.length_replicate, hlen] at hvlen
  rw [RuntimeSymbols.toVec, hrun, Option.some.injEq]
  apply List.ext_getElem hvlen
  intro k hk hk'
  have hnumber : (BitVec.ofNat 16 k).toNat = k := toNat_ofNat_of_lt (by omega)
  have hat := hset (table[k], BitVec.ofNat 16 k) ((hmem _).2 (by
    rw [hnumber, List.getElem?_eq_getElem hk']))
  rw [hnumber, List.getElem?_eq_getElem hk] at hat
  exact Option.some.inj hat

theorem Numbers.toVec (N : rt.Numbers table) : rt.toVec = some table := N.toVec_of_perm (.refl _)

end RuntimeSymbols

/-! ## One stencil -/

theorem prefix_walk (table : List Ident) (refs : List (Option Reference)) :
    table <+: (walk table refs).2 := by
  induction refs generalizing table with
  | nil => exact List.prefix_refl _
  | cons ref refs ih =>
      rcases ref with _ | patch | name
      · exact List.prefix_refl _
      · exact ih table
      · rw [walk]
        split
        · exact (prefix_record table name).trans (ih _)
        · exact List.prefix_refl _

namespace Extractor

section

variable {demangle : Ident → Ident} {allowedSymbols : List Ident}

/-- The outcome of one turn of the relocation loop, for what the relocation refers to. -/
def Turned (table : List Ident) (entry : Nat × ObjectRelocation) (found : Option Relocation)
    (rt' : RuntimeSymbols) : Option Reference → Prop
  | none => found = none ∧ rt'.Numbers table
  | some (.own patch) => rt'.Numbers table ∧ ∃ reloc, found = some reloc ∧
      newRelocation entry.1 entry.2 patch = .ok reloc
  | some (.runtime name) =>
      if table.length < 2 ^ 16 then
        rt'.Numbers (record table name) ∧ ∃ reloc, found = some reloc ∧
          newRelocation entry.1 entry.2
            (.runtime (BitVec.ofNat 16 ((record table name).idxOf name))) = .ok reloc
      else found = none ∧ rt'.Numbers table

/-- What the loop does with a symbol that is not the stencil's own. -/
theorem turned_of_addSymbol {entry : Nat × ObjectRelocation} {table : List Ident}
    {rt rt' : RuntimeSymbols} {name : Ident} {found : Option Relocation} (N : rt.Numbers table)
    (h : (match rt.addSymbol demangle name with
      | none => return (none, rt)
      | some (id, rt) => do
          let reloc ← Run.ofExcept (newRelocation entry.1 entry.2 (.runtime id))
          return (some reloc, rt) : Run (Option Relocation × RuntimeSymbols)) =
        pure (found, rt')) :
    rt'.allowList = rt.allowList ∧
      Turned table entry found rt'
        (if RuntimeSymbols.allows demangle rt.allowList name then some (.runtime name) else none) := by
  by_cases hallow : RuntimeSymbols.allows demangle rt.allowList name = true
  · rw [if_pos hallow]
    by_cases hlt : table.length < 2 ^ 16
    · obtain ⟨rt₁, hadd, N₁, hlist⟩ := N.addSymbol hlt hallow
      simp only [hadd] at h
      obtain ⟨reloc, hreloc, h⟩ := Run.bind_eq_pure.1 h
      obtain ⟨rfl, rfl⟩ := Prod.mk.inj (Run.pure_inj h)
      refine ⟨hlist, ?_⟩
      rw [Turned, if_pos hlt]
      exact ⟨N₁, reloc, rfl, Run.ofExcept_eq_pure.1 hreloc⟩
    · simp only [N.addSymbol_full (Nat.le_of_not_lt hlt)] at h
      obtain ⟨rfl, rfl⟩ := Prod.mk.inj (Run.pure_inj h)
      refine ⟨rfl, ?_⟩
      rw [Turned, if_neg hlt]
      exact ⟨rfl, N⟩
  · have hnone : rt.addSymbol demangle name = none := if_neg hallow
    simp only [hnone] at h
    obtain ⟨rfl, rfl⟩ := Prod.mk.inj (Run.pure_inj h)
    rw [if_neg hallow]
    exact ⟨rfl, rfl, N⟩

theorem turned_of_relocationOf {c : Candidate} {entry : Nat × ObjectRelocation}
    {table : List Ident} {rt rt' : RuntimeSymbols} {found : Option Relocation}
    (N : rt.Numbers table) (hallow : rt.allowList = allowedSymbols)
    (h : relocationOf demangle c.file c.stencil entry.1 entry.2 rt = pure (found, rt')) :
    rt'.allowList = allowedSymbols ∧
      Turned table entry found rt' (reference demangle allowedSymbols c entry.2) := by
  subst hallow
  rw [relocationOf] at h
  rw [reference]
  cases htarget : entry.2.target with
  -- each of these exits drops the stencil and leaves the runtime symbols alone
  | other =>
      simp only [htarget] at h ⊢
      obtain ⟨rfl, rfl⟩ := Prod.mk.inj (Run.pure_inj h)
      exact ⟨rfl, rfl, N⟩
  | symbol target =>
      simp only [htarget] at h ⊢
      cases hsym : c.file.symbolByIndex target with
      | none =>
          simp only [hsym] at h ⊢
          obtain ⟨rfl, rfl⟩ := Prod.mk.inj (Run.pure_inj h)
          exact ⟨rfl, rfl, N⟩
      | some sym =>
          simp only [hsym, Option.bind_eq_bind, Option.bind_some] at h ⊢
          by_cases hsect : sym.sectionIndex.isSome = true
          · -- a symbol with a section ends the run
            rw [if_pos hsect] at h
            cases h
          · rw [if_neg hsect] at h ⊢
            cases hname : sym.name with
            | none =>
                simp only [hname] at h ⊢
                obtain ⟨rfl, rfl⟩ := Prod.mk.inj (Run.pure_inj h)
                exact ⟨rfl, rfl, N⟩
            | some name =>
                simp only [hname, Option.bind_some] at h ⊢
                obtain ⟨patch, hpatch, h⟩ := Run.bind_eq_pure.1 h
                rw [Run.ofOption_eq_pure.1 hpatch, Option.bind_some]
                cases patch with
                | some patch =>
                    obtain ⟨reloc, hreloc, h⟩ := Run.bind_eq_pure.1 h
                    obtain ⟨rfl, rfl⟩ := Prod.mk.inj (Run.pure_inj h)
                    exact ⟨rfl, N, reloc, rfl, Run.ofExcept_eq_pure.1 hreloc⟩
                | none => exact turned_of_addSymbol N h

theorem expressed_own {c : Candidate} {entry : Nat × ObjectRelocation} {patch : PatchType}
    {reloc : Relocation} (href : reference demangle allowedSymbols c entry.2 = some (.own patch))
    (h : newRelocation entry.1 entry.2 patch = .ok reloc) (table : List Ident) :
    expressed demangle allowedSymbols table c entry = some reloc := by
  simp [expressed, href, Reference.patch, h, Except.toOption]

/-- A recorded symbol keeps its number in every longer table. -/
theorem expressed_runtime {c : Candidate} {entry : Nat × ObjectRelocation} {name : Ident}
    {table final : List Ident} {reloc : Relocation}
    (href : reference demangle allowedSymbols c entry.2 = some (.runtime name))
    (h : newRelocation entry.1 entry.2
      (.runtime (BitVec.ofNat 16 ((record table name).idxOf name))) = .ok reloc)
    (hfinal : record table name <+: final) :
    expressed demangle allowedSymbols final c entry = some reloc := by
  have hmem := mem_record table name
  have hidx := idxOf_stable hfinal hmem
  have hpatch : (Reference.runtime name).patch final =
      some (.runtime (BitVec.ofNat 16 ((record table name).idxOf name))) := by
    rw [Reference.patch, if_pos (hfinal.subset hmem), hidx]
  simp [expressed, href, hpatch, h, Except.toOption]

/-- The outcome of the relocation loop over some entries, for a walk over their references that ended
as `w`. -/
structure Walked (demangle : Ident → Ident) (allowedSymbols : List Ident) (c : Candidate)
    (entries : List (Nat × ObjectRelocation)) (found : Option (List Relocation))
    (rt' : RuntimeSymbols) (w : Bool × List Ident) : Prop where
  allowed : rt'.allowList = allowedSymbols
  numbers : rt'.Numbers w.2
  skipped : w.1 = false → found = none
  kept : w.1 = true → ∃ relocations, found = some relocations ∧ ∀ final, w.2 <+: final →
    entries.mapM (expressed demangle allowedSymbols final c) = some relocations

/-- One entry before the others. -/
theorem Walked.cons {c : Candidate} {entries : List (Nat × ObjectRelocation)}
    {found : Option (List Relocation)} {rt' : RuntimeSymbols} {w : Bool × List Ident}
    (W : Walked demangle allowedSymbols c entries found rt' w) {entry : Nat × ObjectRelocation}
    {reloc : Relocation}
    (hexp : ∀ final, w.2 <+: final →
      expressed demangle allowedSymbols final c entry = some reloc) :
    Walked demangle allowedSymbols c (entry :: entries) (found.map (reloc :: ·)) rt' w where
  allowed := W.allowed
  numbers := W.numbers
  skipped hf := by
    rw [W.skipped hf]
    rfl
  kept ht := by
    obtain ⟨relocations, hfound, hmapM⟩ := W.kept ht
    refine ⟨reloc :: relocations, by rw [hfound]; rfl, ?_⟩
    intro final hfinal
    rw [List.mapM_cons, hexp final hfinal, hmapM final hfinal]
    rfl

/-- The relocation loop ends where the walk over the references does. -/
theorem walked_of_relocationsOf {c : Candidate} {entries : List (Nat × ObjectRelocation)}
    {table : List Ident} {rt rt' : RuntimeSymbols} {found : Option (List Relocation)}
    (N : rt.Numbers table) (hallow : rt.allowList = allowedSymbols)
    (h : relocationsOf demangle c.file c.stencil entries rt = pure (found, rt')) {w : Bool × List Ident}
    (hw : walk table (entries.map fun e => reference demangle allowedSymbols c e.2) = w) :
    Walked demangle allowedSymbols c entries found rt' w := by
  -- on the entries; the table of runtime symbols is the state that grows
  induction entries generalizing table rt found with
  | nil =>
      obtain ⟨rfl, rfl⟩ := Prod.mk.inj (Run.pure_inj h)
      subst hw
      exact ⟨hallow, N, by simp [walk], fun _ => ⟨[], rfl, fun _ _ => rfl⟩⟩
  | cons entry entries ih =>
      obtain ⟨⟨first, rt₁⟩, hfirst, h⟩ := Run.bind_eq_pure.1 h
      obtain ⟨hlist, T⟩ := turned_of_relocationOf N hallow hfirst
      rw [List.map_cons] at hw
      -- an entry that was turned into a relocation: the rest of the loop follows
      have hrest : ∀ {table₁ : List Ident} {reloc : Relocation}, rt₁.Numbers table₁ →
          first = some reloc →
          walk table₁ (entries.map fun e => reference demangle allowedSymbols c e.2) = w →
          (∀ final, w.2 <+: final → expressed demangle allowedSymbols final c entry = some reloc) →
          Walked demangle allowedSymbols c (entry :: entries) found rt' w := by
        intro table₁ reloc N₁ hsome hw₁ hexp
        subst hsome
        obtain ⟨⟨relocations, rt₂⟩, hmore, h⟩ := Run.bind_eq_pure.1 h
        obtain ⟨rfl, rfl⟩ := Prod.mk.inj (Run.pure_inj h)
        exact (ih N₁ hlist hmore hw₁).cons hexp
      -- an entry without a relocation: the stencil is skipped
      have hstop : ∀ {table₁ : List Ident}, rt₁.Numbers table₁ → first = none →
          (false, table₁) = w → Walked demangle allowedSymbols c (entry :: entries) found rt' w := by
        intro table₁ N₁ hnone hw₁
        subst hnone hw₁
        obtain ⟨rfl, rfl⟩ := Prod.mk.inj (Run.pure_inj h)
        exact ⟨hlist, N₁, fun _ => rfl, by simp⟩
      cases href : reference demangle allowedSymbols c entry.2 with
      | none =>
          rw [href] at T hw
          exact hstop T.2 T.1 hw
      | some ref =>
          rw [href] at T hw
          cases ref with
          | own patch =>
              obtain ⟨N₁, reloc, hsome, hnew⟩ := T
              exact hrest N₁ hsome hw fun final _ => expressed_own href hnew final
          | runtime name =>
              rw [Turned] at T
              rw [walk] at hw
              by_cases hlt : table.length < 2 ^ 16
              · rw [if_pos hlt] at T hw
                obtain ⟨N₁, reloc, hsome, hnew⟩ := T
                refine hrest N₁ hsome hw fun final hfinal => expressed_runtime href hnew ?_
                exact (hw ▸ prefix_walk _ _ : record table name <+: w.2).trans hfinal
              · rw [if_neg hlt] at T hw
                exact hstop T.2 T.1 hw

end

end Extractor

/-! ## The state after some stencils -/

/-- The metadata of a stencil's function, as its file has it. -/
def metadataOf (file : ObjectFile) (name : Ident) : Option Metadata :=
  ((file.symbolByName (STENCIL_FUNC_PREFIX ++ name ++ "__meta".toList)).bind (getData file)).bind
    fun (_, data) => Metadata.unpack data

/-- The first kept stencil fixes the number of registers. -/
def regsOf (kept : List Candidate) : Option U16 :=
  kept.head?.bind fun c => (metadataOf c.file c.stencil.name).map Metadata.maxRegs

/-- Kept stencils with the starts of their code. -/
def placed : Nat → List Candidate → List (Nat × Candidate)
  | _, [] => []
  | start, c :: cs => (start, c) :: placed (start + c.stencil.code.length) cs

def codeOf (kept : List Candidate) : List U8 := kept.flatMap fun c => c.stencil.code

theorem placed_concat (start : Nat) (kept : List Candidate) (c : Candidate) :
    placed start (kept ++ [c]) = placed start kept ++ [(start + (codeOf kept).length, c)] := by
  induction kept generalizing start with
  | nil => simp [placed, codeOf]
  | cons k kept ih =>
      rw [List.cons_append, placed, placed, ih]
      simp [codeOf, Nat.add_assoc]

theorem mem_placed {start : Nat} {kept : List Candidate} {p : Nat × Candidate}
    (h : p ∈ placed start kept) : p.2 ∈ kept ∧ ∃ before after,
      codeOf kept = before ++ p.2.stencil.code ++ after ∧ p.1 = start + before.length := by
  induction kept generalizing start with
  | nil => cases h
  | cons k kept ih =>
      rcases List.mem_cons.1 h with rfl | h
      · exact ⟨List.mem_cons_self, [], codeOf kept, by simp [codeOf], by simp⟩
      · obtain ⟨hmem, before, after, hcode, hstart⟩ := ih h
        refine ⟨List.mem_cons_of_mem k hmem, k.stencil.code ++ before, after, ?_, ?_⟩
        · change k.stencil.code ++ codeOf kept = _
          rw [hcode]
          simp only [List.append_assoc]
        · rw [hstart, List.length_append]
          omega

section Demangle

variable (checks : Bool) (demangle : Ident → Ident) (allowedSymbols : List Ident)

/-- The call that adds a kept stencil, with the runtime symbols numbered by `final`. -/
def callOf (final : List Ident) (p : Nat × Candidate) : StencilCall where
  name := p.2.stencil.symName
  code := ⟨p.1, p.1 + p.2.stencil.code.length⟩
  io := p.2.stencil.io
  wide := p.2.stencil.wide
  relocations := (relocationList demangle allowedSymbols final p.2).getD []

/-- The calls for the stencils of one function. -/
def callsOf (final : List Ident) (name : Ident) (kept : List Candidate) : List StencilCall :=
  ((placed 0 kept).filter fun p => p.2.stencil.name = name).map (callOf demangle allowedSymbols final)

theorem callsOf_concat (final : List Ident) (name : Ident) (kept : List Candidate) (c : Candidate) :
    callsOf demangle allowedSymbols final name (kept ++ [c]) =
      callsOf demangle allowedSymbols final name kept ++
        if c.stencil.name = name then
          [callOf demangle allowedSymbols final ((codeOf kept).length, c)] else [] := by
  rw [callsOf, placed_concat, List.filter_append, List.map_append, Nat.zero_add]
  by_cases h : c.stencil.name = name <;> simp [callsOf, h]

/-- The state of a run that has kept some stencils, when its runtime symbols end up numbered by
`final`. -/
structure Extracted (final : List Ident) (state : List Candidate × List Ident) (e : Extractor) :
    Prop where
  numbers : e.rtSymbols.Numbers state.2
  allowed : e.rtSymbols.allowList = allowedSymbols
  code : e.allCode = codeOf state.1
  maxRegs : e.maxRegs = regsOf state.1
  maxRegs_isSome : state.1 ≠ [] → e.maxRegs.isSome = true
  listed : ∀ c ∈ state.1, (relocationList demangle allowedSymbols final c).isSome = true
  absent : ∀ name, e.stencils.lookup name = none → ∀ c ∈ state.1, c.stencil.name ≠ name
  present : ∀ name b, e.stencils.lookup name = some b → ∃ metadata,
    e.maxRegs = some metadata.maxRegs ∧
      b.Filled checks metadata (callsOf demangle allowedSymbols final name state.1)

variable {demangle allowedSymbols}

theorem extracted_new (final : List Ident) :
    Extracted checks demangle allowedSymbols final ([], []) (Extractor.new allowedSymbols) where
  numbers := RuntimeSymbols.numbers_new allowedSymbols
  allowed := rfl
  code := rfl
  maxRegs := rfl
  maxRegs_isSome := by simp
  listed := by simp
  absent := by simp
  present := by
    intro name b h
    cases h

end Demangle

/-- Where the builder of a function comes from. -/
theorem Extractor.builderOf_cases {file : ObjectFile} {name : Ident} {e e' : Extractor}
    {builder : StencilFamilyBuilder} (h : e.builderOf file name = pure (builder, e')) :
    e.stencils.lookup name = some builder ∧ e' = e ∨
    e.stencils.lookup name = none ∧ ∃ metadata, metadataOf file name = some metadata ∧
      builder = StencilFamilyBuilder.new metadata ∧
      e' = { e with maxRegs := some metadata.maxRegs } ∧
      (e.maxRegs = none ∨ e.maxRegs = some metadata.maxRegs) := by
  rw [builderOf] at h
  cases hlookup : e.stencils.lookup name with
  | some b =>
      simp only [hlookup] at h
      obtain ⟨rfl, rfl⟩ := Prod.mk.inj (Run.pure_inj h)
      exact Or.inl ⟨rfl, rfl⟩
  | none =>
      refine Or.inr ⟨rfl, ?_⟩
      simp only [hlookup] at h
      split at h
      -- without its metadata symbol a function ends the run
      · cases h
      · next data hdata =>
        obtain ⟨metadata, hmeta, h⟩ := Run.bind_eq_pure.1 h
        have hunpack : metadataOf file name = some metadata := by
          rw [metadataOf, hdata]
          exact Run.ofOption_eq_pure.1 hmeta
        refine ⟨metadata, hunpack, ?_⟩
        cases hregs : e.maxRegs with
        | none =>
            simp only [hregs] at h
            obtain ⟨rfl, rfl⟩ := Prod.mk.inj (Run.pure_inj h)
            exact ⟨rfl, rfl, Or.inl rfl⟩
        | some maxRegs =>
            simp only [hregs] at h
            split at h
            -- all functions of a library have the same number of registers
            · cases h
            · next heq =>
              obtain rfl := Decidable.not_not.1 heq
              obtain ⟨rfl, rfl⟩ := Prod.mk.inj (Run.pure_inj h)
              exact ⟨rfl, by rw [← hregs], Or.inr rfl⟩

section Demangle

variable {checks : Bool} {demangle : Ident → Ident} {allowedSymbols final : List Ident}
  {state : List Candidate × List Ident} {e e' : Extractor}

theorem callsOf_eq_nil {name : Ident} {kept : List Candidate}
    (h : ∀ c ∈ kept, c.stencil.name ≠ name) :
    callsOf demangle allowedSymbols final name kept = [] := by
  rw [callsOf, List.map_eq_nil_iff, List.filter_eq_nil_iff]
  intro p hp
  simpa using h p.2 (mem_placed hp).1

/-- The builder to which a stencil is added, and the registers after it is found. -/
theorem Extracted.builderOf (E : Extracted checks demangle allowedSymbols final state e) {c : Candidate}
    {e₁ e₂ : Extractor} {builder : StencilFamilyBuilder}
    (h : e₁.builderOf c.file c.stencil.name = pure (builder, e₂))
    (hstencils : e₁.stencils = e.stencils) (hmaxRegs : e₁.maxRegs = e.maxRegs) :
    e₂ = { e₁ with maxRegs := e₂.maxRegs } ∧ e₂.maxRegs = regsOf (state.1 ++ [c]) ∧
      (∀ maxRegs, e.maxRegs = some maxRegs → e₂.maxRegs = some maxRegs) ∧
      ∃ metadata, e₂.maxRegs = some metadata.maxRegs ∧
        builder.Filled checks metadata (callsOf demangle allowedSymbols final c.stencil.name state.1) := by
  -- the registers of the first kept stencil stay
  have hfirst : ∀ maxRegs, e.maxRegs = some maxRegs → regsOf (state.1 ++ [c]) = some maxRegs := by
    intro maxRegs hregs
    rw [E.maxRegs] at hregs
    cases hkept : state.1 with
    | nil =>
        rw [hkept] at hregs
        cases hregs
    | cons k kept =>
        rw [hkept] at hregs
        exact hregs
  rcases Extractor.builderOf_cases h with ⟨hlookup, rfl⟩ | ⟨hlookup, metadata, hmeta, rfl, rfl, hregs⟩
  · rw [hstencils] at hlookup
    obtain ⟨metadata, hregs, F⟩ := E.present _ _ hlookup
    rw [← hmaxRegs] at hregs
    refine ⟨rfl, hregs.trans (hfirst _ (hmaxRegs ▸ hregs)).symm, ?_, metadata, hregs, F⟩
    exact fun _ hold => hmaxRegs.trans hold
  · rw [hstencils] at hlookup
    rw [hmaxRegs] at hregs
    refine ⟨rfl, ?_, ?_, metadata, rfl, ?_⟩
    · rcases hregs with hregs | hregs
      · -- this stencil is the first one
        have hnil : state.1 = [] := by
          by_contra hne
          have hsome := E.maxRegs_isSome hne
          rw [hregs] at hsome
          cases hsome
        rw [hnil, List.nil_append, regsOf, List.head?_cons, Option.bind_some, hmeta]
        rfl
      · exact (hfirst _ hregs).symm
    · intro maxRegs hold
      rcases hregs with hregs | hregs
      · rw [hregs] at hold
        cases hold
      · rw [← hregs, hold]
    · rw [callsOf_eq_nil (E.absent _ hlookup)]
      exact StencilFamilyBuilder.filled_new checks metadata

theorem linkStep_complete {c : Candidate} {w : Bool × List Ident}
    (hw : walk state.2 (references demangle allowedSymbols c) = w) :
    linkStep demangle allowedSymbols state c =
      (if w.1 then state.1 ++ [c] else state.1, w.2) := by
  rw [linkStep, hw]

/-- The state after a stencil was added to its builder. -/
theorem Extracted.keep (E : Extracted checks demangle allowedSymbols final state e) {c : Candidate}
    {table : List Ident} {rt : RuntimeSymbols} {maxRegs : Option U16} {metadata : Metadata}
    {builder : StencilFamilyBuilder} (N : rt.Numbers table) (hlist : rt.allowList = allowedSymbols)
    (hlisted : (relocationList demangle allowedSymbols final c).isSome = true)
    (hregs : maxRegs = regsOf (state.1 ++ [c]))
    (hold : ∀ regs, e.maxRegs = some regs → maxRegs = some regs)
    (hmeta : maxRegs = some metadata.maxRegs)
    (F : builder.Filled checks metadata
      (callsOf demangle allowedSymbols final c.stencil.name (state.1 ++ [c]))) :
    Extracted checks demangle allowedSymbols final (state.1 ++ [c], table)
      { e with rtSymbols := rt, allCode := e.allCode ++ c.stencil.code, maxRegs := maxRegs,
               stencils := setKey c.stencil.name builder e.stencils } where
  numbers := N
  allowed := hlist
  code := by
    rw [E.code]
    simp [codeOf]
  maxRegs := hregs
  maxRegs_isSome _ := by
    rw [hmeta]
    rfl
  listed k hk := by
    rcases List.mem_append.1 hk with hk | hk
    · exact E.listed k hk
    · obtain rfl := List.mem_singleton.1 hk
      exact hlisted
  absent name hname k hk := by
    rw [lookup_setKey] at hname
    split at hname
    · cases hname
    · next hne =>
      rcases List.mem_append.1 hk with hk | hk
      · exact E.absent name hname k hk
      · obtain rfl := List.mem_singleton.1 hk
        exact fun h => hne h.symm
  present name b hb := by
    rw [lookup_setKey] at hb
    split at hb
    · next heq =>
      obtain rfl := Option.some.inj hb
      rw [heq]
      exact ⟨metadata, hmeta, F⟩
    · next hne =>
      -- the calls of other functions stay the same
      obtain ⟨metadata', hmeta', F'⟩ := E.present name b hb
      rw [callsOf_concat, if_neg fun h => hne h.symm, List.append_nil]
      exact ⟨metadata', hold _ hmeta', F'⟩

/-- **One stencil** is kept in its slot or skipped. -/
theorem Extracted.addStencil (E : Extracted checks demangle allowedSymbols final state e) {c : Candidate}
    (hfinal : (linkStep demangle allowedSymbols state c).2 <+: final)
    (h : e.addStencil checks demangle c.file c.stencil = pure e') :
    Extracted checks demangle allowedSymbols final (linkStep demangle allowedSymbols state c) e' := by
  obtain ⟨⟨found, rt⟩, hwalk, h⟩ := Run.bind_eq_pure.1 h
  obtain ⟨w, hw⟩ : ∃ w, walk state.2 (references demangle allowedSymbols c) = w := ⟨_, rfl⟩
  have W := Extractor.walked_of_relocationsOf E.numbers E.allowed hwalk hw
  rw [linkStep_complete hw] at hfinal ⊢
  cases hcomplete : w.1 with
  | false =>
      obtain rfl := W.skipped hcomplete
      obtain rfl := Run.pure_inj h
      exact { E with numbers := W.numbers, allowed := W.allowed }
  | true =>
      obtain ⟨relocations, rfl, hexpressed⟩ := W.kept hcomplete
      have hrelocs : relocationList demangle allowedSymbols final c =
          some (Extractor.sortByOffset relocations) := by
        rw [relocationList, hexpressed final hfinal, Option.map_some]
      obtain ⟨⟨builder, e₁⟩, hbuilder, h⟩ := Run.bind_eq_pure.1 h
      obtain ⟨builder', hadd, h⟩ := Run.bind_eq_pure.1 h
      obtain rfl := Run.pure_inj h
      have hadd := Run.ofResult_eq_pure.1 hadd
      obtain ⟨he₁, hregs, hold, metadata, hmeta, F⟩ := E.builderOf hbuilder rfl rfl
      -- the call is the one of the new last stencil
      have hcall : callOf demangle allowedSymbols final ((codeOf state.1).length, c) =
          { name := c.stencil.symName
            code := ⟨e.allCode.length, e₁.allCode.length⟩
            io := c.stencil.io
            wide := c.stencil.wide
            relocations := Extractor.sortByOffset relocations } := by
        rw [he₁, callOf, hrelocs, E.code]
        simp only [List.length_append, Option.getD_some]
      rw [← hcall] at hadd
      have F' : builder'.Filled checks metadata
          (callsOf demangle allowedSymbols final c.stencil.name (state.1 ++ [c])) := by
        rw [callsOf_concat, if_pos rfl]
        exact F.addStencil hadd
      have hlisted : (relocationList demangle allowedSymbols final c).isSome = true := by
        rw [hrelocs]
        rfl
      have hkept := E.keep W.numbers W.allowed hlisted hregs hold hmeta F'
      rw [if_pos rfl, he₁]
      exact hkept

/-! ## The run -/

theorem linkAll_append (state : List Candidate × List Ident) (cs ds : List Candidate) :
    linkAll demangle allowedSymbols state (cs ++ ds) =
      linkAll demangle allowedSymbols (linkAll demangle allowedSymbols state cs) ds :=
  List.foldl_append

/-- The runtime symbols only grow. -/
theorem prefix_linkAll (state : List Candidate × List Ident) (cs : List Candidate) :
    state.2 <+: (linkAll demangle allowedSymbols state cs).2 := by
  induction cs generalizing state with
  | nil => exact List.prefix_refl _
  | cons c cs ih =>
      have hstep : state.2 <+: (linkStep demangle allowedSymbols state c).2 := prefix_walk _ _
      exact hstep.trans (ih _)

theorem Extracted.addSymbol (E : Extracted checks demangle allowedSymbols final state e)
    {file : ObjectFile} {symbol : ObjectSymbol}
    (h : e.addSymbol checks demangle file symbol = pure e')
    (hfinal : (linkAll demangle allowedSymbols state (candidatesOf checks file [symbol])).2 <+: final) :
    Extracted checks demangle allowedSymbols final
      (linkAll demangle allowedSymbols state (candidatesOf checks file [symbol])) e' := by
  rw [Extractor.addSymbol] at h
  by_cases hkind : symbol.kind = .text
  · rw [if_neg (not_not.2 hkind)] at h
    obtain ⟨stencil, hstencil, h⟩ := Run.bind_eq_pure.1 h
    rw [Run.ofOption_eq_pure] at hstencil
    cases stencil with
    | none =>
        obtain rfl := Run.pure_inj h
        have hnil : candidatesOf checks file [symbol] = [] := by simp [candidatesOf, hkind, hstencil]
        rw [hnil]
        exact E
    | some stencil =>
        have hone : candidatesOf checks file [symbol] = [⟨file, stencil⟩] := by
          simp [candidatesOf, hkind, hstencil]
        rw [hone] at hfinal ⊢
        exact @Extracted.addStencil checks demangle allowedSymbols final state e e' E ⟨file, stencil⟩ hfinal h
  · rw [if_pos hkind] at h
    obtain rfl := Run.pure_inj h
    have hnil : candidatesOf checks file [symbol] = [] := by simp [candidatesOf, hkind]
    rw [hnil]
    -- only the name of the library can change
    rw [Extractor.setLibName]
    split
    · split
      · exact { E with }
      · exact E
    · exact E

theorem candidatesOf_cons (checks : Bool) (file : ObjectFile) (symbol : ObjectSymbol)
    (symbols : List ObjectSymbol) :
    candidatesOf checks file (symbol :: symbols) =
      candidatesOf checks file [symbol] ++ candidatesOf checks file symbols := by
  rw [candidatesOf, candidatesOf, candidatesOf, ← List.filterMap_append, List.singleton_append]

theorem Extracted.addSymbols (E : Extracted checks demangle allowedSymbols final state e)
    {file : ObjectFile} {symbols : List ObjectSymbol}
    (h : e.addSymbols checks demangle file symbols = pure e')
    (hfinal : (linkAll demangle allowedSymbols state (candidatesOf checks file symbols)).2 <+: final) :
    Extracted checks demangle allowedSymbols final
      (linkAll demangle allowedSymbols state (candidatesOf checks file symbols)) e' := by
  -- on the symbols of the file, in their order
  induction symbols generalizing state e with
  | nil =>
      obtain rfl := Run.pure_inj h
      exact E
  | cons symbol symbols ih =>
      obtain ⟨e₁, hfirst, h⟩ := Run.bind_eq_pure.1 h
      rw [candidatesOf_cons, linkAll_append] at hfinal ⊢
      exact ih (E.addSymbol hfirst ((prefix_linkAll _ _).trans hfinal)) h hfinal

theorem Extracted.addMembers (E : Extracted checks demangle allowedSymbols final state e)
    {members : List (Option Member)} (h : e.addMembers checks demangle members = pure e')
    (hfinal : (linkAll demangle allowedSymbols state (candidates checks members)).2 <+: final) :
    Extracted checks demangle allowedSymbols final
      (linkAll demangle allowedSymbols state (candidates checks members)) e' := by
  -- on the members of the archive; other members than objects are skipped
  induction members generalizing state e with
  | nil =>
      obtain rfl := Run.pure_inj h
      exact E
  | cons member members ih =>
      cases member with
      | none => cases h
      | some member =>
          rw [Extractor.addMembers] at h
          by_cases hname : member.isObject = true
          · rw [if_neg (not_not.2 hname)] at h
            cases hfile : member.file with
            | none =>
                rw [hfile] at h
                cases h
            | some file =>
                rw [hfile] at h
                obtain ⟨e₁, hfirst, h⟩ := Run.bind_eq_pure.1 h
                have hcons : candidates checks (some member :: members) =
                    candidatesOf checks file file.symbols ++ candidates checks members := by
                  simp [candidates, objectFiles, hname, hfile]
                rw [hcons, linkAll_append] at hfinal ⊢
                exact ih (E.addSymbols hfirst ((prefix_linkAll _ _).trans hfinal)) h hfinal
          · rw [if_pos hname] at h
            have hskip : candidates checks (some member :: members) = candidates checks members := by
              simp [candidates, objectFiles, hname]
            rw [hskip] at hfinal ⊢
            exact ih E h hfinal

end Demangle

end Patchouly.Build
