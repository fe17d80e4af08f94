import Patchouly.Patch.Rebase
import Patchouly.Patch.Total

/-!
# Blocks of sound runs can be finalized

`finalizeInto` panics where a write leaves the map, where an address wraps, at a runtime symbol without an
address and at a pending jump. `finalizeInto_total` says that the block of a run of sound calls meets none
of these on a map that has room for it, and which of the errors is returned.
-/

set_option autoImplicit false

namespace Patchouly.Patch

open Patchouly.Lib Patchouly.Core

section Library

variable {MAX_REGS : Nat}

/-- The long jump can be looked up, and if there is one its fields lie inside its code. -/
def SoundLongJump (library : StencilLibrary MAX_REGS) : Prop :=
  ∃ selected ∈ (PatchBlock.new library).longJumpStencil, ∀ lj ∈ selected,
    ∃ code ∈ lj.code library.code, ∃ relocs ∈ lj.relocations library.longJump,
      FieldsInside code (holeZeroEntries relocs) ∧
        ∀ r ∈ holeZeroEntries relocs, r.size.toNat ∈ [8, 16, 32, 64]

instance (library : StencilLibrary MAX_REGS) : Decidable (SoundLongJump library) :=
  inferInstanceAs (Decidable (∃ selected ∈ (PatchBlock.new library).longJumpStencil, _))

end Library

/-- The entry names a block that the program does not have. -/
def unresolvedIn (blocks : ProgramBlocks) (d : DelayedRelocation) : Bool :=
  match d.target with
  | .block t => (blocks.resolveTarget t).isNone
  | _ => false

namespace PatchBlock

variable {MAX_REGS : Nat}

/-- What finalizing a block returns, when it returns. -/
def verdict (self : PatchBlock MAX_REGS) (blocks : ProgramBlocks) : Except PatchError Unit :=
  if ¬ self.ended then .error .notEnded
  else if ¬ self.nextRelocations.isEmpty then .error .invalidEnd
  else if ¬ self.runtimeTrampolineSymbols.isEmpty ∧ self.longJumpStencil = some none then
    .error .stencilNotFound
  else if self.relocations.any (unresolvedIn blocks) then .error .unresolvedBlockTarget
  else .ok ()

/-! ## The loops -/

section Loops

variable {base : Usize} {off constantBase : Nat} {addresses : List Usize}
  {blocks : ProgramBlocks} {map : LoggedBuffer}

/-- The relocation loop gets past an entry of this kind in a map of `total` bytes. -/
structure Resolvable (total off constantBase : Nat) (addresses : List Usize) (d : DelayedRelocation) :
    Prop where
  writable : Writable d.relocation
  fits : off + d.fieldEnd ≤ total
  filed : d.target ≠ .next
  constant : ∀ n : U16, d.target = .constant n → off + constantBase + n.toNat * usizeSize ≤ total
  runtime : ∀ s : U16, d.target = .runtime s → s.toNat < addresses.length

/-- A target has an address, or names a block that is not there. -/
theorem targetAddress_total (checks : Bool) {d : DelayedRelocation} {total : Nat}
    (hbase : Addressable base total) (hblocks : ∀ o ∈ blocks.offsets, o ≤ total) (hd : Resolvable total off constantBase addresses d) :
    (unresolvedIn blocks d = true ∧
      targetAddress checks base (base + BitVec.ofNat 64 off) constantBase addresses blocks d.target =
        some (.error .unresolvedBlockTarget)) ∨
    (unresolvedIn blocks d = false ∧ ∃ t,
      targetAddress checks base (base + BitVec.ofNat 64 off) constantBase addresses blocks d.target =
        some (.ok t)) := by
  rw [unresolvedIn]
  cases htarget : d.target with
  | block t =>
      simp only [targetAddress]
      cases ho : blocks.resolveTarget t with
      | none => exact Or.inl ⟨rfl, rfl⟩
      | some o =>
          refine Or.inr ⟨rfl, base + BitVec.ofNat 64 o, ?_⟩
          simp only [hbase.place (hblocks o (List.mem_of_getElem? ho)), Option.map_some]
  | constant n =>
      have hslot := hd.constant n htarget
      have hpool : plainAdd checks (base + BitVec.ofNat 64 off) (BitVec.ofNat 64 constantBase) =
          some (base + BitVec.ofNat 64 (off + constantBase)) := hbase.place_add (by omega)
      refine Or.inr ⟨rfl, base + BitVec.ofNat 64 (off + constantBase + n.toNat * usizeSize), ?_⟩
      simp only [targetAddress, hpool, hbase.place_add hslot, Option.bind_eq_bind, Option.bind_some,
        Option.pure_def]
  | runtime s =>
      obtain ⟨address, haddress⟩ : ∃ address, addresses[s.toNat]? = some address :=
        ⟨_, List.getElem?_eq_getElem (hd.runtime s htarget)⟩
      refine Or.inr ⟨rfl, address, ?_⟩
      rw [targetAddress, haddress, Option.map_some]
  | next => exact absurd htarget hd.filed

/-- **The relocation loop** stops at an entry for a block that is not there, and nowhere else. -/
theorem applyRelocations_total (checks : Bool) {relocs : List DelayedRelocation}
    (hbase : Addressable base map.bytes.length) (hblocks : ∀ o ∈ blocks.offsets, o ≤ map.bytes.length)
    (hrelocs : ∀ d ∈ relocs, Resolvable map.bytes.length off constantBase addresses d) :
    ∃ map', applyRelocations checks base off (base + BitVec.ofNat 64 off) constantBase addresses blocks
        relocs map =
      some (if relocs.any (unresolvedIn blocks) then .error .unresolvedBlockTarget else .ok (), map') ∧
        map'.bytes.length = map.bytes.length := by
  induction relocs generalizing map with
  | nil => exact ⟨map, rfl, rfl⟩
  | cons d rest ih =>
      have hd := hrelocs d List.mem_cons_self
      rw [List.any_cons]
      rcases targetAddress_total checks hbase hblocks hd with
        ⟨hbad, htarget⟩ | ⟨hgood, t, htarget⟩
      · refine ⟨map, ?_, rfl⟩
        simp only [applyRelocations, htarget, hbad, Option.bind_eq_bind, Option.bind_some,
          Bool.true_or, if_true, Option.pure_def]
      · have hresolve : ∃ v, d.resolve checks (base + BitVec.ofNat 64 off) t = some v := by
          rw [DelayedRelocation.resolve]
          split
          · have hfits := hd.fits
            rw [DelayedRelocation.fieldEnd] at hfits
            rw [hbase.place_add (show off + d.location ≤ _ by omega), Option.map_some]
            exact ⟨_, rfl⟩
          · exact ⟨_, rfl⟩
        obtain ⟨v, hv⟩ := hresolve
        obtain ⟨m, hm, hlen⟩ := @apply_of_fits off d map v hd.writable hd.fits
        obtain ⟨map', hmap', hlen'⟩ := @ih m (by rw [hlen]; exact hbase) (by rw [hlen]; exact hblocks)
          (fun d' hd' => by rw [hlen]; exact hrelocs d' (List.mem_cons_of_mem d hd'))
        refine ⟨map', ?_, hlen'.trans hlen⟩
        simp only [applyRelocations, htarget, hv, hm, hgood, Option.bind_eq_bind, Option.bind_some,
          Bool.false_or, hmap']

end Loops

section Trampolines

variable {self : PatchBlock MAX_REGS} {base : Usize} {off : Nat} {lj : Stencil}
  {code : List U8} {relocs : List Relocation}

theorem placeTrampoline_total (checks : Bool) (i : Nat) {symbol : U16} {st : TrampolineState}
    (hcode : lj.code self.library.code = some code)
    (hrelocs : lj.relocations self.library.longJump = some relocs)
    (hbase : Addressable base st.map.bytes.length)
    (hfit : off + st.current + code.length ≤ st.map.bytes.length)
    (hsymbol : symbol.toNat < st.addresses.length) :
    ∃ st', self.placeTrampoline checks off (base + BitVec.ofNat 64 off) lj i symbol st = some st' ∧
      st'.current = st.current + code.length ∧ st'.map.bytes.length = st.map.bytes.length ∧
        st'.addresses.length = st.addresses.length := by
  obtain ⟨map, hmap⟩ := LoggedBuffer.copyFromSlice_of_fits hfit
  have hplace : plainAdd checks (base + BitVec.ofNat 64 off) (BitVec.ofNat 64 st.current) =
      some (base + BitVec.ofNat 64 (off + st.current)) := hbase.place_add (by omega)
  refine ⟨⟨map, st.addresses.set symbol.toNat (base + BitVec.ofNat 64 (off + st.current)),
    st.relocations ++ (holeZeroEntries relocs).map fun relocation =>
      .constant st.current relocation (BitVec.ofNat 16 (self.constants.length + i)),
    st.current + code.length⟩, ?_, rfl, (copyFromSlice_fits hmap).2, List.length_set⟩
  simp only [placeTrampoline, hcode, hmap, hplace, hsymbol, hrelocs, Option.bind_eq_bind,
    Option.bind_some, if_true, Option.pure_def]

/-- **The trampoline loop.** -/
theorem placeTrampolines_total (checks : Bool) (i : Nat) {symbols : List U16} {st : TrampolineState}
    (hcode : lj.code self.library.code = some code)
    (hrelocs : lj.relocations self.library.longJump = some relocs)
    (hbase : Addressable base st.map.bytes.length)
    (hfit : off + st.current + symbols.length * code.length ≤ st.map.bytes.length)
    (hsymbols : ∀ s ∈ symbols, s.toNat < st.addresses.length) :
    ∃ st', self.placeTrampolines checks off (base + BitVec.ofNat 64 off) lj i symbols st = some st' := by
  induction symbols generalizing i st with
  | nil => exact ⟨st, rfl⟩
  | cons symbol rest ih =>
      rw [List.length_cons, Nat.add_mul, Nat.one_mul] at hfit
      obtain ⟨m, hm, hcurrent, hlen, haddresses⟩ := placeTrampoline_total checks i hcode hrelocs hbase
        (show off + st.current + code.length ≤ _ by omega) (hsymbols symbol List.mem_cons_self)
      rw [placeTrampolines, hm, Option.bind_some]
      apply ih
      · rw [hlen]
        exact hbase
      · rw [hcurrent, hlen]
        omega
      · rw [haddresses]
        exact fun s hs => hsymbols s (List.mem_cons_of_mem symbol hs)

end Trampolines

/-! ## The block -/

section Block

variable {library : StencilLibrary MAX_REGS} {b : PatchBlock MAX_REGS}
  {stencils : List CopiedStencil} {base : Usize} {off : Nat} {blocks : ProgramBlocks}
  {map : LoggedBuffer}

theorem longJumpStencil_of_library (h : b.library = library) :
    b.longJumpStencil = (PatchBlock.new library).longJumpStencil := by
  rw [longJumpStencil, h]
  rfl

/-- What the sound long jump gives for a block. -/
theorem longJump_of_sound (hlong : SoundLongJump library) (hlibrary : b.library = library)
    {lj : Stencil} (hlj : b.longJumpStencil = some (some lj)) :
    ∃ relocs, lj.code b.library.code = some b.longJumpCode ∧
      lj.relocations b.library.longJump = some relocs ∧ b.longJumpEntries = holeZeroEntries relocs ∧
        FieldsInside b.longJumpCode b.longJumpEntries ∧ ∀ r ∈ b.longJumpEntries, Writable r := by
  obtain ⟨selected, hselected, hsound⟩ := hlong
  rw [← longJumpStencil_of_library hlibrary, hlj, Option.mem_def, Option.some_inj] at hselected
  subst hselected
  obtain ⟨code, hcode, relocs, hrelocs, hinside, hsizes⟩ := hsound lj rfl
  rw [Option.mem_def, ← hlibrary] at hcode hrelocs
  have hlongJump : b.longJumpOrEmpty = lj := by simp [longJumpOrEmpty, hlj]
  have hentries : b.longJumpEntries = holeZeroEntries relocs := by
    rw [longJumpEntries, hlongJump, hrelocs, Option.getD_some]
  have hbytes : b.longJumpCode = code := by rw [longJumpCode, hlongJump, hcode, Option.getD_some]
  refine ⟨relocs, hbytes ▸ hcode, hrelocs, hentries, ?_, ?_⟩
  · rw [hentries, hbytes]
    exact hinside
  · intro r hr
    rw [hentries] at hr
    have hvalid := not_isInvalid_of_mem (List.mem_of_mem_filter hr)
    exact writable_of_valid (hsizes r hr) hvalid

/-- The runtime symbols of a sound state have addresses. -/
theorem symbol_lt (h : SoundState library ⟨b, stencils⟩) {s : U16}
    (hs : s ∈ b.runtimeTrampolineSymbols) : s.toNat < b.library.rtSymbols.length := by
  obtain ⟨d, hd, hdt⟩ := mem_runtimeTrampolineSymbols.1 hs
  rw [show b.library = library from h.same]
  exact h.runtime d hd s hdt

/-- A delayed entry of a sound state is a field of a sound stencil, inside the code. -/
theorem delayed_fits (h : SoundState library ⟨b, stencils⟩) {d : DelayedRelocation}
    (hd : d ∈ b.relocations) : Writable d.relocation ∧ d.fieldEnd ≤ b.code.length := by
  obtain ⟨-, k, s, hentry, hkept, -⟩ := h.link.delayed d hd
  obtain ⟨hsound, hvalid⟩ := h.stencils s (List.mem_of_getElem? hentry.stencil)
  refine ⟨writable_of_valid (hsound.sizes _ hentry.relocation) (hvalid _ hentry.relocation), ?_⟩
  rw [hentry.location.2] at hkept ⊢
  exact h.link.kept_le hentry.stencil hkept (hsound.wellPlaced.fieldStop_le hentry.relocation)

/-- Every entry that the relocation loop meets can be resolved. -/
theorem resolvable_of_sound (h : SoundState library ⟨b, stencils⟩) (hslots : b.PoolIndices)
    (hlong : SoundLongJump library)
    (hlj : b.runtimeTrampolineSymbols ≠ [] → ∃ lj, b.longJumpStencil = some (some lj)) {total : Nat}
    (hfit : off + b.extent ≤ total) {blockBase : Usize} {st : TrampolineState}
    (hst : Trampolined b off blockBase map st) {d : DelayedRelocation} (hd : d ∈ b.delayedEntries) :
    Resolvable total off b.poolBase st.addresses d := by
  have hpad := b.codeEnd_le_poolBase
  have hcodeEnd : b.codeEnd ≤ b.extent := Nat.le_trans hpad (Nat.le_add_right _ _)
  have hwritable : Writable d.relocation := by
    rcases List.mem_append.1 hd with hd | hd
    · exact (delayed_fits h hd).1
    · obtain ⟨lj, hlj⟩ := hlj (symbols_ne_nil_of_trampolineEntry hd)
      obtain ⟨-, -, -, -, -, hwrite⟩ := longJump_of_sound hlong h.same hlj
      exact hwrite _ (trampolineEntries_target hd).1
  have hend : d.fieldEnd ≤ b.codeEnd := by
    apply fieldEnd_le_codeEnd (fun d hd => (delayed_fits h hd).2) ?_ hd
    intro hne
    obtain ⟨lj, hlj⟩ := hlj hne
    obtain ⟨-, -, -, -, hinside, -⟩ := longJump_of_sound hlong h.same hlj
    exact hinside
  refine ⟨hwritable, by omega, ?_, ?_, ?_⟩
  · rcases List.mem_append.1 hd with hd | hd
    · exact (h.link.delayed d hd).1
    · obtain ⟨-, n, hn, -⟩ := trampolineEntries_target hd
      rw [hn]
      exact DelayedTarget.noConfusion
  · intro n hn
    have hslot := hslots.slot hd hn
    have hmul : n.toNat * usizeSize ≤ b.poolValues.length * usizeSize :=
      Nat.mul_le_mul_right _ (Nat.le_of_lt hslot)
    rw [extent] at hfit
    omega
  · intro s hs
    have hsome := hst.addresses s (mem_runtime_of_delayedEntries hd hs)
    exact (List.getElem?_eq_some_iff.1 hsome).1

/-- The constants and the relocations behind the trampolines. -/
theorem finalizePool_total (h : SoundState library ⟨b, stencils⟩) (hslots : b.PoolIndices)
    (hlong : SoundLongJump library)
    (hlj : b.runtimeTrampolineSymbols ≠ [] → ∃ lj, b.longJumpStencil = some (some lj))
    (hfit : off + b.extent ≤ map.bytes.length) (hbase : Addressable base map.bytes.length)
    (hblocks : ∀ o ∈ blocks.offsets, o ≤ map.bytes.length) (checks : Bool) {st : TrampolineState}
    (hst : Trampolined b off (base + BitVec.ofNat 64 off) map st) :
    ∃ map', b.finalizePool checks base off (base + BitVec.ofNat 64 off) blocks st =
      some (if b.relocations.any (unresolvedIn blocks) then .error .unresolvedBlockTarget else .ok (),
        map') ∧ map'.bytes.length = map.bytes.length := by
  have hlen : st.map.bytes.length = map.bytes.length := applyWrites_length hst.map.bytes
  have hsymbols : (b.runtimeTrampolineSymbols.mapM fun symbol => b.library.rtSymbols[symbol.toNat]?) =
      some (b.runtimeTrampolineSymbols.map fun s => (b.library.rtSymbols[s.toNat]?).getD 0) := by
    apply mapM_eq_map
    intro s hs
    rw [List.getElem?_eq_getElem (symbol_lt h hs), Option.getD_some]
  have hvalues : b.poolValues.length = b.constants.length + b.runtimeTrampolineSymbols.length := by
    rw [poolValues, List.length_append, List.length_map]
  have hsplit : b.poolValues.length * usizeSize =
      usizeSize * b.constants.length + usizeSize * b.runtimeTrampolineSymbols.length := by
    rw [hvalues, Nat.mul_comm, Nat.mul_add]
  rw [extent] at hfit
  obtain ⟨m₁, hm₁, hlen₁⟩ := @placeConstants_of_fits (off + b.poolBase) b.constants st.map (by omega)
  obtain ⟨m₂, hm₂, hlen₂⟩ := @placeConstants_of_fits
    (off + b.poolBase + usizeSize * b.constants.length)
    (b.runtimeTrampolineSymbols.map fun s => (b.library.rtSymbols[s.toNat]?).getD 0) m₁
    (by rw [List.length_map]; omega)
  have hsame : m₂.bytes.length = map.bytes.length := hlen₂.trans (hlen₁.trans hlen)
  obtain ⟨map', hmap', hlen'⟩ := @applyRelocations_total base off b.poolBase st.addresses blocks m₂
    checks b.delayedEntries (hsame ▸ hbase) (hsame ▸ hblocks) (by
      intro d hd
      rw [hsame]
      exact resolvable_of_sound h hslots hlong hlj hfit hst hd)
  -- the entries of the trampolines name no block
  have hany : b.delayedEntries.any (unresolvedIn blocks) = b.relocations.any (unresolvedIn blocks) := by
    have hnone : (trampolineEntries b.longJumpEntries b.longJumpCode.length b.code.length
        b.constants.length b.runtimeTrampolineSymbols).any (unresolvedIn blocks) = false := by
      rw [List.any_eq_false]
      intro d hd
      obtain ⟨-, n, hn, -⟩ := trampolineEntries_target hd
      rw [unresolvedIn, hn]
      exact Bool.false_ne_true
    rw [delayedEntries, List.any_append, hnone, Bool.or_false]
  rw [hany] at hmap'
  refine ⟨map', ?_, hlen'.trans hsame⟩
  have hpool : b.constantBase b.codeEnd = b.poolBase := rfl
  have hentries : b.relocations ++ trampolineEntries b.longJumpEntries b.longJumpCode.length
      b.code.length b.constants.length b.runtimeTrampolineSymbols = b.delayedEntries := rfl
  simp only [finalizePool, hst.current, hst.relocations, hpool, hentries, hm₁, hsymbols, hm₂,
    Option.bind_eq_bind, Option.bind_some, hmap']

/-- **Finalizing.** On a map with room for the block, at a base where no address wraps, `finalizeInto`
does not panic, and its result is the one that the mark, the pending jumps, the long jump and the program's
blocks say. -/
theorem finalizeInto_total {checks : Bool}
    (h : ((blockSystem checks library).guard fun _ => SoundCall library).Reachable b)
    (hlong : SoundLongJump library) (hfit : off + b.extent ≤ map.bytes.length)
    (hbase : Addressable base map.bytes.length)
    (hblocks : ∀ o ∈ blocks.offsets, o ≤ map.bytes.length) :
    ∃ map', b.finalizeInto checks base off map blocks = some (b.verdict blocks, map') ∧
      map'.bytes.length = map.bytes.length := by
  obtain ⟨stencils, hi⟩ := soundState_of_block h
  have hslots := poolIndices_of_reachable h.of_guard
  have hcodeEnd : b.codeEnd ≤ b.extent := Nat.le_trans b.codeEnd_le_poolBase (Nat.le_add_right _ _)
  have hcode : b.code.length ≤ b.codeEnd := Nat.le_add_right _ _
  obtain ⟨m, hm⟩ := @LoggedBuffer.copyFromSlice_of_fits map off b.code (by omega)
  have hext := LoggedBuffer.extends_of_copyFromSlice hm
  have hlen := (copyFromSlice_fits hm).2
  have hplace : plainAdd checks base (BitVec.ofNat 64 off) = some (base + BitVec.ofNat 64 off) :=
    hbase.place (by omega)
  rw [finalizeInto, verdict]
  split
  · exact ⟨map, rfl, rfl⟩
  · split
    · exact ⟨map, rfl, rfl⟩
    · simp only [hplace, hm, Option.bind_eq_bind, Option.bind_some]
      cases hempty : b.runtimeTrampolineSymbols.isEmpty with
      | true =>
          have hnil := List.isEmpty_iff.1 hempty
          obtain ⟨map', hmap', hlen'⟩ := finalizePool_total hi hslots hlong
            (fun hne => absurd hnil hne) hfit hbase hblocks checks (trampolined_nil hext hnil)
          exact ⟨map', by simpa using hmap', hlen'⟩
      | false =>
          have hne : b.runtimeTrampolineSymbols ≠ [] := by
            intro hnil
            rw [hnil] at hempty
            cases hempty
          have hselected := hlong
          obtain ⟨selected, hselected, -⟩ := hselected
          rw [← longJumpStencil_of_library hi.same, Option.mem_def] at hselected
          replace hselected : b.longJumpStencil = some selected := hselected
          cases selected with
          | none =>
              refine ⟨m, ?_, hlen⟩
              simp [hselected]
          | some lj =>
              obtain ⟨relocs, hljCode, hljRelocs, -⟩ := longJump_of_sound hlong hi.same hselected
              -- the copies of the long jump fit behind the code
              obtain ⟨st, hst⟩ := @placeTrampolines_total _ b base off lj b.longJumpCode relocs checks 0
                b.runtimeTrampolineSymbols
                ⟨m, List.replicate b.library.rtSymbols.length 0, [], b.code.length⟩ hljCode hljRelocs
                (by rw [hlen]; exact hbase) (by
                  rw [codeEnd] at hcodeEnd
                  simp only [hlen]
                  omega) (by
                  intro s hs
                  rw [List.length_replicate]
                  exact symbol_lt hi hs)
              obtain ⟨map', hmap', hlen'⟩ := finalizePool_total hi hslots hlong
                (fun _ => ⟨lj, hselected⟩) hfit hbase hblocks checks
                (trampolined_of_placeTrampolines hext hselected hst)
              refine ⟨map', ?_, hlen'⟩
              simp only [hselected, hst, hmap', Option.bind_some, Bool.false_eq_true, not_false_eq_true,
                true_and, Option.some.injEq, reduceCtorEq, if_false]

/-- **The length of a block** is computed, and is the end of its pool. -/
theorem measure_total (hlong : SoundLongJump library) (hlibrary : b.library = library) :
    b.measure = some (if b.ended then some b.extent else none) := by
  obtain ⟨selected, hselected, hsound⟩ := hlong
  rw [← longJumpStencil_of_library hlibrary, Option.mem_def] at hselected
  rw [measure]
  cases hended : b.ended with
  | false => rfl
  | true =>
      -- the announced length of the long jump is the length of the code that is copied
      have hcode : (selected.map (·.codeLen.toNat)).getD 0 = b.longJumpCode.length := by
        have hlongJump : b.longJumpOrEmpty = selected.getD default := by
          rw [longJumpOrEmpty, hselected, Option.getD_some]
        rw [longJumpCode, hlongJump]
        cases selected with
        | none => rfl
        | some lj =>
            obtain ⟨code, hcode, -⟩ := hsound lj rfl
            rw [Option.mem_def, ← hlibrary] at hcode
            rw [Option.getD_some, hcode, Option.getD_some, Stencil.code_length hcode]
            rfl
      have hvalues : b.poolValues.length = b.constants.length + b.runtimeTrampolineSymbols.length := by
        rw [poolValues, List.length_append, List.length_map]
      simp only [finalLen, hselected, hcode, Option.bind_eq_bind, Option.bind_some, Option.pure_def,
        not_true_eq_false, if_false, if_true, extent, poolBase, constantBase, hvalues, ← codeEnd.eq_1]
      split
      · next hzero =>
        have hconstants : b.constants = [] := List.length_eq_zero_iff.1 (by omega)
        have hsymbols : b.runtimeTrampolineSymbols = [] := List.length_eq_zero_iff.1 (by omega)
        simp [hconstants, hsymbols]
      · next hpos =>
        have hsome : (b.constants.isEmpty && b.runtimeTrampolineSymbols.isEmpty) = false := by
          by_contra hboth
          rw [Bool.not_eq_false, Bool.and_eq_true, List.isEmpty_iff, List.isEmpty_iff] at hboth
          exact hpos (by rw [hboth.1, hboth.2]; rfl)
        simp [hsome]

end Block

end PatchBlock

end Patchouly.Patch
