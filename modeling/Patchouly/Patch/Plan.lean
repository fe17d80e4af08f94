import Patchouly.Lib.Tables
import Patchouly.Patch.Finalize
import Patchouly.Patch.Emission

/-!
# The writes of `finalizeInto`

A successful `finalizeInto` performs one fixed list of writes (`PatchBlock.finalWrites`): the code,
one copy of the long jump per runtime symbol, the constant pool, and one field per delayed entry.
`finalizePool_of_finalizeInto` is the only place where the function is taken apart; every later result
about a finalized map is a statement about the writes that `finalizeInto_ok` gives.

The addresses below wrap, so the description holds with and without overflow checks.
-/

set_option autoImplicit false

namespace Patchouly.Patch

open Patchouly.Lib Patchouly.Core

/-! ## The parts of the plan -/

/-- One copy of `code` per symbol, from `start` on. -/
def trampolineWrites (start : Nat) (code : List U8) : List U16 → List Write
  | [] => []
  | _ :: rest => ⟨start, code⟩ :: trampolineWrites (start + code.length) code rest

/-- The delayed entries of the trampolines: their holes read the pool slots from `index` on. -/
def trampolineEntries (entries : List Relocation) (len : Nat) :
    Nat → Nat → List U16 → List DelayedRelocation
  | _, _, [] => []
  | start, index, _ :: rest =>
      entries.map (fun r => .constant start r (BitVec.ofNat 16 index)) ++
        trampolineEntries entries len (start + len) (index + 1) rest

/-- One pool slot per value, from `start` on. -/
def poolWrites (start : Nat) : List Usize → List Write
  | [] => []
  | c :: rest => ⟨start, neBytes c⟩ :: poolWrites (start + usizeSize) rest

theorem symbols_ne_nil_of_trampolineEntry {entries : List Relocation} {len start index : Nat}
    {symbols : List U16} {d : DelayedRelocation}
    (h : d ∈ trampolineEntries entries len start index symbols) : symbols ≠ [] := by
  rintro rfl
  cases h

/-- The delayed entries of the trampolines copy a hole of the long jump and read one of the pool
slots that belong to the symbols. -/
theorem trampolineEntries_target {entries : List Relocation} {len start index : Nat}
    {symbols : List U16} {d : DelayedRelocation}
    (h : d ∈ trampolineEntries entries len start index symbols) :
    d.relocation ∈ entries ∧
      ∃ n : U16, d.target = .constant n ∧ n.toNat < index + symbols.length := by
  induction symbols generalizing start index with
  | nil => cases h
  | cons s rest ih =>
      rcases List.mem_append.1 h with h | h
      · obtain ⟨r, hr, rfl⟩ := List.mem_map.1 h
        refine ⟨hr, BitVec.ofNat 16 index, rfl, ?_⟩
        have hle : (BitVec.ofNat 16 index).toNat ≤ index := by
          rw [BitVec.toNat_ofNat]
          exact Nat.mod_le _ _
        simp only [List.length_cons]
        omega
      · obtain ⟨hmem, n, hn, hlt⟩ := ih h
        refine ⟨hmem, n, hn, ?_⟩
        simp only [List.length_cons]
        omega

namespace PatchBlock

variable {MAX_REGS : Nat}

section Parts

variable (self : PatchBlock MAX_REGS)

/-- The selected long-jump stencil, or an empty one. -/
def longJumpOrEmpty : Stencil := (self.longJumpStencil.getD none).getD default

def longJumpCode : List U8 := ((self.longJumpOrEmpty).code self.library.code).getD []

def longJumpEntries : List Relocation :=
  holeZeroEntries (((self.longJumpOrEmpty).relocations self.library.longJump).getD [])

/-- End of the code and its trampolines inside the block. -/
def codeEnd : Nat :=
  self.code.length + self.runtimeTrampolineSymbols.length * self.longJumpCode.length

/-- Start of the constant pool inside the block. -/
def poolBase : Nat := self.constantBase self.codeEnd

/-- The values of the pool slots. -/
def poolValues : List Usize :=
  self.constants ++ self.runtimeTrampolineSymbols.map fun s =>
    (self.library.rtSymbols[s.toNat]?).getD 0

/-- Start of the trampoline of a symbol inside the block. -/
def trampolineStart (s : U16) : Nat :=
  self.code.length + self.runtimeTrampolineSymbols.idxOf s * self.longJumpCode.length

/-- All entries the relocation loop resolves, in order. -/
def delayedEntries : List DelayedRelocation :=
  self.relocations ++ trampolineEntries self.longJumpEntries self.longJumpCode.length
    self.code.length self.constants.length self.runtimeTrampolineSymbols

/-- The address an entry refers to, for a block placed at `blockBaseOffset`. -/
def entryTarget (base : Usize) (blockBaseOffset : Nat) (blocks : ProgramBlocks) :
    DelayedTarget → Option Usize
  | .block b => (blocks.resolveTarget b).map fun o => base + BitVec.ofNat 64 o
  | .constant n => some (base + BitVec.ofNat 64 blockBaseOffset + BitVec.ofNat 64 self.poolBase +
      BitVec.ofNat 64 (n.toNat * usizeSize))
  | .runtime s => some (base + BitVec.ofNat 64 blockBaseOffset +
      BitVec.ofNat 64 (self.trampolineStart s))
  | .next => none

/-- The write of one delayed entry. -/
def entryWrite (base : Usize) (blockBaseOffset : Nat) (blocks : ProgramBlocks)
    (d : DelayedRelocation) : Write :=
  d.fieldWrite blockBaseOffset (d.resolved (base + BitVec.ofNat 64 blockBaseOffset)
    ((self.entryTarget base blockBaseOffset blocks d.target).getD 0))

/-- The writes before the relocation loop. -/
def layoutWrites (blockBaseOffset : Nat) : List Write :=
  ⟨blockBaseOffset, self.code⟩ ::
    (trampolineWrites (blockBaseOffset + self.code.length) self.longJumpCode
      self.runtimeTrampolineSymbols ++
    poolWrites (blockBaseOffset + self.poolBase) self.poolValues)

/-- **All writes of a successful `finalizeInto`**, in order. -/
def finalWrites (base : Usize) (blockBaseOffset : Nat) (blocks : ProgramBlocks) : List Write :=
  self.layoutWrites blockBaseOffset ++
    self.delayedEntries.map (self.entryWrite base blockBaseOffset blocks)

end Parts

/-! ## Runtime symbols -/

theorem collectRuntime_spec (symbols : List U16) (relocs : List DelayedRelocation)
    (hn : symbols.Nodup) :
    (collectRuntime symbols relocs).Nodup ∧
      ∀ s, s ∈ collectRuntime symbols relocs ↔
        s ∈ symbols ∨ ∃ d ∈ relocs, d.target = .runtime s := by
  induction relocs generalizing symbols with
  | nil => exact ⟨hn, fun s => by simp [collectRuntime]⟩
  | cons d relocs ih =>
      rw [collectRuntime]
      split
      · next symbol ht =>
        have hn' : (if symbol ∈ symbols then symbols else symbols ++ [symbol]).Nodup := by
          split
          · exact hn
          · next hm =>
            refine List.nodup_append.2 ⟨hn, by simp, ?_⟩
            intro a ha b hb
            rw [List.mem_singleton.1 hb]
            exact fun he => hm (he ▸ ha)
        obtain ⟨h1, h2⟩ := ih _ hn'
        refine ⟨h1, fun s => (h2 s).trans ?_⟩
        -- a symbol met before adds nothing to the list
        by_cases hm : symbol ∈ symbols
        · simp only [hm, if_true, List.mem_cons, exists_eq_or_imp, ht, DelayedTarget.runtime.injEq]
          constructor
          · rintro (h | h)
            · exact Or.inl h
            · exact Or.inr (Or.inr h)
          · rintro (h | rfl | h)
            · exact Or.inl h
            · exact Or.inl hm
            · exact Or.inr h
        · simp only [hm, if_false, List.mem_append, List.mem_cons, List.not_mem_nil, or_false,
            exists_eq_or_imp, ht, DelayedTarget.runtime.injEq, or_assoc, @eq_comm _ s symbol]
      · next hne =>
        obtain ⟨h1, h2⟩ := ih symbols hn
        refine ⟨h1, fun s => (h2 s).trans ?_⟩
        have hd : d.target ≠ .runtime s := fun h => hne s h
        simp [hd]

theorem runtimeTrampolineSymbols_nodup (self : PatchBlock MAX_REGS) :
    self.runtimeTrampolineSymbols.Nodup :=
  (collectRuntime_spec [] self.relocations List.nodup_nil).1

theorem mem_runtimeTrampolineSymbols {self : PatchBlock MAX_REGS} {s : U16} :
    s ∈ self.runtimeTrampolineSymbols ↔ ∃ d ∈ self.relocations, d.target = .runtime s := by
  simpa [runtimeTrampolineSymbols] using
    (collectRuntime_spec [] self.relocations List.nodup_nil).2 s

theorem mem_runtime_of_delayedEntries {self : PatchBlock MAX_REGS} {d : DelayedRelocation}
    {s : U16} (hd : d ∈ self.delayedEntries) (ht : d.target = .runtime s) :
    s ∈ self.runtimeTrampolineSymbols := by
  rw [mem_runtimeTrampolineSymbols]
  rcases List.mem_append.1 hd with hd | hd
  · exact ⟨d, hd, ht⟩
  · obtain ⟨-, n, hn, -⟩ := trampolineEntries_target hd
    rw [ht] at hn
    cases hn

/-! ## The loops -/

theorem placeConstants_extends {start : Nat} {values : List Usize} {map map' : LoggedBuffer}
    (h : placeConstants start values map = some map') :
    LoggedBuffer.Extends map map' (poolWrites start values) := by
  induction values generalizing start map with
  | nil =>
      obtain rfl := Option.some.inj h
      exact .refl _
  | cons c rest ih =>
      obtain ⟨m, hm, h⟩ := Option.bind_eq_some_iff.1 h
      exact (LoggedBuffer.extends_of_copyFromSlice hm).trans (ih h)

section Loops

variable {checks : Bool} {self : PatchBlock MAX_REGS} {base : Usize} {off : Nat}

/-- What the trampoline loop does to its state. -/
structure TrampolineEffect (b : PatchBlock MAX_REGS) (off : Nat) (blockBase : Usize)
    (code : List U8) (entries : List Relocation) (i : Nat) (symbols : List U16)
    (st st' : TrampolineState) : Prop where
  map : LoggedBuffer.Extends st.map st'.map (trampolineWrites (off + st.current) code symbols)
  current : st'.current = st.current + symbols.length * code.length
  relocations : st'.relocations = st.relocations ++
    trampolineEntries entries code.length st.current (b.constants.length + i) symbols
  others : ∀ s : U16, s ∉ symbols → st'.addresses[s.toNat]? = st.addresses[s.toNat]?
  addresses : symbols.Nodup → ∀ s ∈ symbols, st'.addresses[s.toNat]? =
    some (blockBase + BitVec.ofNat 64 (st.current + symbols.idxOf s * code.length))

theorem placeTrampoline_cases {blockBase : Usize} {longJump : Stencil} {i : Nat} {symbol : U16}
    {st st' : TrampolineState}
    (h : self.placeTrampoline checks off blockBase longJump i symbol st = some st') :
    ∃ code map relocs, longJump.code self.library.code = some code ∧
      ByteSlice.copyFromSlice st.map (off + st.current) code = some map ∧
      longJump.relocations self.library.longJump = some relocs ∧
      symbol.toNat < st.addresses.length ∧
      st' = ⟨map, st.addresses.set symbol.toNat (blockBase + BitVec.ofNat 64 st.current),
        st.relocations ++ (holeZeroEntries relocs).map fun r =>
          .constant st.current r (BitVec.ofNat 16 (self.constants.length + i)),
        st.current + code.length⟩ := by
  simp only [placeTrampoline, Option.bind_eq_bind, Option.pure_def] at h
  obtain ⟨code, hcode, h1⟩ := Option.bind_eq_some_iff.1 h
  obtain ⟨map, hmap, h2⟩ := Option.bind_eq_some_iff.1 h1
  obtain ⟨address, haddr, h3⟩ := Option.bind_eq_some_iff.1 h2
  split at h3
  · next hlt =>
    simp only [Option.bind_some] at h3
    obtain ⟨relocs, hrelocs, h4⟩ := Option.bind_eq_some_iff.1 h3
    rw [eq_of_plainAdd haddr] at h4
    exact ⟨code, map, relocs, hcode, hmap, hrelocs, hlt, (Option.some.inj h4).symm⟩
  · cases h3

theorem placeTrampolines_effect {blockBase : Usize} {longJump : Stencil} {i : Nat}
    {symbols : List U16} {st st' : TrampolineState}
    (h : self.placeTrampolines checks off blockBase longJump i symbols st = some st') :
    TrampolineEffect self off blockBase ((longJump.code self.library.code).getD [])
      (holeZeroEntries ((longJump.relocations self.library.longJump).getD [])) i symbols st st' := by
  induction symbols generalizing i st with
  | nil =>
      obtain rfl := Option.some.inj h
      exact ⟨.refl _, by simp, by simp [trampolineEntries], fun _ _ => rfl, by simp⟩
  | cons symbol rest ih =>
      obtain ⟨m, hm, hloop⟩ := Option.bind_eq_some_iff.1 h
      have hrest := ih hloop
      obtain ⟨code, map, relocs, hcode, hmap, hrelocs, hlt, rfl⟩ := placeTrampoline_cases hm
      simp only [hcode, hrelocs, Option.getD_some] at hrest ⊢
      -- placing one trampoline sets the address of its own symbol only
      have hhead : ∀ s : U16, s ≠ symbol →
          (st.addresses.set symbol.toNat (blockBase + BitVec.ofNat 64 st.current))[s.toNat]? =
            st.addresses[s.toNat]? := by
        intro s hs
        apply List.getElem?_set_ne
        intro he
        exact hs (BitVec.eq_of_toNat_eq he.symm)
      refine ⟨?_, ?_, ?_, ?_, ?_⟩
      · have hstep := LoggedBuffer.extends_of_copyFromSlice hmap
        have htail := hrest.map
        simp only [← Nat.add_assoc] at htail
        exact hstep.trans htail
      · rw [hrest.current, List.length_cons, Nat.add_mul]
        simp only
        omega
      · rw [hrest.relocations, trampolineEntries, List.append_assoc]
        simp only [Nat.add_assoc]
      · intro s hs
        simp only [List.mem_cons, not_or] at hs
        rw [hrest.others s hs.2]
        exact hhead s hs.1
      · intro hn s hs
        obtain ⟨hnot, hn'⟩ := List.nodup_cons.1 hn
        by_cases he : s = symbol
        · subst he
          rw [hrest.others s hnot]
          simp [hlt]
        · have hs' : s ∈ rest := by simpa [he] using hs
          rw [hrest.addresses hn' s hs', List.idxOf_cons_ne _ (fun h => he h.symm)]
          simp only [Nat.succ_eq_add_one, Nat.add_mul, Nat.one_mul]
          congr 3
          omega

/-- A trampoline is only placed when the long jump has code. -/
theorem code_of_placeTrampolines {blockBase : Usize} {longJump : Stencil} {i : Nat}
    {symbols : List U16} {st st' : TrampolineState} (hne : symbols ≠ [])
    (h : self.placeTrampolines checks off blockBase longJump i symbols st = some st') :
    longJump.code self.library.code = some ((longJump.code self.library.code).getD []) := by
  cases symbols with
  | nil => exact absurd rfl hne
  | cons symbol rest =>
      obtain ⟨m, hm, -⟩ := Option.bind_eq_some_iff.1 h
      obtain ⟨code, map, relocs, hcode, -⟩ := placeTrampoline_cases hm
      rw [hcode]
      rfl

/-- The relocation loop performs the write of every entry. -/
theorem applyRelocations_extends {blockBase : Usize} {constantBase : Nat} {addresses : List Usize}
    {blocks : ProgramBlocks} {target : DelayedTarget → Option Usize}
    {relocs : List DelayedRelocation} {map map' : LoggedBuffer}
    (ht : ∀ d ∈ relocs, ∀ t,
      targetAddress checks base blockBase constantBase addresses blocks d.target = some (.ok t) →
        target d.target = some t)
    (h : applyRelocations checks base off blockBase constantBase addresses blocks relocs map =
      some (.ok (), map')) :
    LoggedBuffer.Extends map map'
        (relocs.map fun d => d.fieldWrite off (d.resolved blockBase ((target d.target).getD 0))) ∧
      ∀ d ∈ relocs, (target d.target).isSome ∧ d.relocation.fieldLen ≤ 8 := by
  induction relocs generalizing map with
  | nil =>
      simp only [applyRelocations, Option.some.injEq, Prod.mk.injEq, true_and] at h
      subst h
      exact ⟨.refl _, by simp⟩
  | cons d rest ih =>
      simp only [applyRelocations, Option.bind_eq_bind, Option.pure_def] at h
      obtain ⟨res, hres, h1⟩ := Option.bind_eq_some_iff.1 h
      cases res with
      | error e => simp at h1
      | ok t =>
          obtain ⟨value, hv, h2⟩ := Option.bind_eq_some_iff.1 h1
          obtain ⟨m, hm, h3⟩ := Option.bind_eq_some_iff.1 h2
          rw [DelayedRelocation.eq_of_resolve hv] at hm
          obtain ⟨hl, hcopy⟩ := DelayedRelocation.apply_eq_some hm
          have htd := ht d List.mem_cons_self t hres
          obtain ⟨hext, hall⟩ := ih (fun d' hd' => ht d' (List.mem_cons_of_mem _ hd')) h3
          have hstep := LoggedBuffer.extends_of_copyFromSlice hcopy
          refine ⟨?_, ?_⟩
          · simp only [List.map_cons, htd, Option.getD_some]
            exact hstep.trans hext
          · intro d' hd'
            rcases List.mem_cons.1 hd' with rfl | hd'
            · exact ⟨by rw [htd]; rfl, hl⟩
            · exact hall d' hd'

end Loops

theorem poolWrites_append (start : Nat) (xs ys : List Usize) :
    poolWrites start (xs ++ ys) =
      poolWrites start xs ++ poolWrites (start + usizeSize * xs.length) ys := by
  induction xs generalizing start with
  | nil => simp [poolWrites]
  | cons x xs ih =>
      simp only [List.cons_append, poolWrites, ih, List.length_cons]
      congr 3
      ring

theorem mem_poolWrites {start n : Nat} {values : List Usize} {v : Usize}
    (h : values[n]? = some v) : ⟨start + usizeSize * n, neBytes v⟩ ∈ poolWrites start values := by
  induction values generalizing start n with
  | nil => simp at h
  | cons c rest ih =>
      cases n with
      | zero =>
          obtain rfl : c = v := by simpa using h
          exact List.mem_cons_self
      | succ n =>
          have hmem : ⟨start + usizeSize + usizeSize * n, neBytes v⟩ ∈
              poolWrites (start + usizeSize) rest := ih (by simpa using h)
          rw [show start + usizeSize * (n + 1) = start + usizeSize + usizeSize * n by ring]
          exact List.mem_cons_of_mem _ hmem

section Ok

variable {checks : Bool} {self : PatchBlock MAX_REGS} {base : Usize} {off : Nat}
  {map map' : LoggedBuffer} {blocks : ProgramBlocks}

/-- The state the trampoline loop leaves, as the plan describes it. -/
structure Trampolined (b : PatchBlock MAX_REGS) (off : Nat) (blockBase : Usize)
    (map : LoggedBuffer) (st : TrampolineState) : Prop where
  map : LoggedBuffer.Extends map st.map (⟨off, b.code⟩ ::
    trampolineWrites (off + b.code.length) b.longJumpCode b.runtimeTrampolineSymbols)
  current : st.current = b.codeEnd
  relocations : st.relocations = trampolineEntries b.longJumpEntries b.longJumpCode.length
    b.code.length b.constants.length b.runtimeTrampolineSymbols
  addresses : ∀ s ∈ b.runtimeTrampolineSymbols, st.addresses[s.toNat]? =
    some (blockBase + BitVec.ofNat 64 (b.trampolineStart s))

theorem trampolined_nil {blockBase : Usize} {m : LoggedBuffer}
    (hm : LoggedBuffer.Extends map m [⟨off, self.code⟩])
    (hnil : self.runtimeTrampolineSymbols = []) :
    Trampolined self off blockBase map
      ⟨m, List.replicate self.library.rtSymbols.length 0, [], self.code.length⟩ := by
  refine ⟨?_, by simp [codeEnd, hnil], by simp [hnil, trampolineEntries], by simp [hnil]⟩
  simpa [hnil, trampolineWrites] using hm

theorem trampolined_of_placeTrampolines {blockBase : Usize} {m : LoggedBuffer} {lj : Stencil}
    {st : TrampolineState} (hm : LoggedBuffer.Extends map m [⟨off, self.code⟩])
    (hlj : self.longJumpStencil = some (some lj))
    (h : self.placeTrampolines checks off blockBase lj 0 self.runtimeTrampolineSymbols
      ⟨m, List.replicate self.library.rtSymbols.length 0, [], self.code.length⟩ = some st) :
    Trampolined self off blockBase map st := by
  have heff := placeTrampolines_effect h
  have hlong : lj = self.longJumpOrEmpty := by simp [longJumpOrEmpty, hlj]
  subst hlong
  refine ⟨?_, heff.current, ?_, ?_⟩
  · exact hm.trans heff.map
  · exact heff.relocations.trans (List.nil_append _)
  · exact heff.addresses self.runtimeTrampolineSymbols_nodup

/-- The two loops that fill the pool. -/
theorem pool_extends {start : Nat} {m m1 m2 : LoggedBuffer} {symbols : List Usize}
    (hm1 : placeConstants start self.constants m = some m1)
    (hsymbols : (self.runtimeTrampolineSymbols.mapM fun symbol =>
      self.library.rtSymbols[symbol.toNat]?) = some symbols)
    (hm2 : placeConstants (start + usizeSize * self.constants.length) symbols m1 = some m2) :
    LoggedBuffer.Extends m m2 (poolWrites start self.poolValues) := by
  rw [eq_map_of_mapM 0 hsymbols] at hm2
  rw [poolValues, poolWrites_append]
  exact (placeConstants_extends hm1).trans (placeConstants_extends hm2)

theorem finalizePool_ok {st : TrampolineState}
    (hst : Trampolined self off (base + BitVec.ofNat 64 off) map st)
    (h : self.finalizePool checks base off (base + BitVec.ofNat 64 off) blocks st =
      some (.ok (), map')) :
    LoggedBuffer.Extends map map' (self.finalWrites base off blocks) ∧
      ∀ d ∈ self.delayedEntries, (self.entryTarget base off blocks d.target).isSome ∧
        d.relocation.fieldLen ≤ 8 := by
  simp only [finalizePool, Option.bind_eq_bind, hst.current, hst.relocations] at h
  obtain ⟨m1, hm1, h1⟩ := Option.bind_eq_some_iff.1 h
  obtain ⟨symbols, hsymbols, h2⟩ := Option.bind_eq_some_iff.1 h1
  obtain ⟨m2, hm2, hloop⟩ := Option.bind_eq_some_iff.1 h2
  have hpool : LoggedBuffer.Extends st.map m2
      (poolWrites (off + self.poolBase) self.poolValues) := pool_extends hm1 hsymbols hm2
  -- the address the loop computes is the planned one, by the kind of target
  have htarget : ∀ d ∈ self.delayedEntries, ∀ t,
      targetAddress checks base (base + BitVec.ofNat 64 off) (self.constantBase self.codeEnd)
        st.addresses blocks d.target = some (.ok t) →
      self.entryTarget base off blocks d.target = some t := by
    intro d hd t ht
    cases hdt : d.target with
    | block b =>
        simp only [hdt, targetAddress] at ht
        split at ht
        · cases ht
        · next o ho =>
          obtain ⟨v, hv, hvt⟩ := Option.map_eq_some_iff.1 ht
          obtain rfl := eq_of_plainAdd hv
          obtain rfl := Except.ok.inj hvt
          simp [entryTarget, ho]
    | constant n =>
        simp only [hdt, targetAddress, Option.bind_eq_bind, Option.pure_def] at ht
        obtain ⟨pool, hp, ht⟩ := Option.bind_eq_some_iff.1 ht
        obtain ⟨slot, hs, ht⟩ := Option.bind_eq_some_iff.1 ht
        obtain rfl := eq_of_plainAdd hp
        obtain rfl := eq_of_plainAdd hs
        obtain rfl := Except.ok.inj (Option.some.inj ht)
        rfl
    | runtime s =>
        simp only [hdt, targetAddress] at ht
        obtain ⟨v, hv, hvt⟩ := Option.map_eq_some_iff.1 ht
        obtain rfl := Except.ok.inj hvt
        have hmem := mem_runtime_of_delayedEntries hd hdt
        rw [hst.addresses s hmem] at hv
        rw [entryTarget, ← hv]
    -- a pending jump stops the loop
    | next => simp [hdt, targetAddress] at ht
  obtain ⟨hext, hall⟩ := applyRelocations_extends htarget hloop
  refine ⟨?_, hall⟩
  have hwrites := (hst.map.trans hpool).trans hext
  simp only [List.cons_append, List.append_assoc] at hwrites
  simp only [finalWrites, layoutWrites, List.cons_append, List.append_assoc]
  exact hwrites

/-- The way to the pool: the block had ended without a pending jump, and a long jump was placed for
every runtime symbol. -/
theorem finalizePool_of_finalizeInto
    (h : self.finalizeInto checks base off map blocks = some (.ok (), map')) :
    self.ended = true ∧ self.nextRelocations = [] ∧
      (self.runtimeTrampolineSymbols ≠ [] → ∃ lj, self.longJumpStencil = some (some lj) ∧
        lj.code self.library.code = some self.longJumpCode) ∧
      ∃ st, Trampolined self off (base + BitVec.ofNat 64 off) map st ∧
        self.finalizePool checks base off (base + BitVec.ofNat 64 off) blocks st =
          some (.ok (), map') := by
  simp only [finalizeInto, Option.bind_eq_bind, Option.pure_def] at h
  split at h
  · simp at h
  · next hended =>
    split at h
    · simp at h
    · next hnext =>
      have hended' : self.ended = true := by simpa using hended
      have hnext' : self.nextRelocations = [] := by simpa using hnext
      obtain ⟨blockBase, hbase, h⟩ := Option.bind_eq_some_iff.1 h
      obtain rfl := eq_of_plainAdd hbase
      obtain ⟨m, hm, h⟩ := Option.bind_eq_some_iff.1 h
      have hcode := LoggedBuffer.extends_of_copyFromSlice hm
      split at h
      · next hempty =>
        have hnil : self.runtimeTrampolineSymbols = [] := by simpa using hempty
        exact ⟨hended', hnext', fun hne => absurd hnil hne, _, trampolined_nil hcode hnil, h⟩
      · next hempty =>
        have hne : self.runtimeTrampolineSymbols ≠ [] := by simpa using hempty
        obtain ⟨lj, hlj, h⟩ := Option.bind_eq_some_iff.1 h
        cases lj with
        | none => simp at h
        | some lj =>
            obtain ⟨st, hst, h⟩ := Option.bind_eq_some_iff.1 h
            have hcopy := code_of_placeTrampolines hne hst
            have htramp := trampolined_of_placeTrampolines hcode hlj hst
            rw [show lj = self.longJumpOrEmpty by simp [longJumpOrEmpty, hlj]] at hcopy hlj
            exact ⟨hended', hnext', fun _ => ⟨_, hlj, hcopy⟩, st, htramp, h⟩

/-- **A successful `finalizeInto`**: the block had ended without a pending jump, and the map was
changed by the writes of the plan. -/
theorem finalizeInto_ok (h : self.finalizeInto checks base off map blocks = some (.ok (), map')) :
    self.ended = true ∧ self.nextRelocations = [] ∧
      (self.runtimeTrampolineSymbols ≠ [] → ∃ lj, self.longJumpStencil = some (some lj) ∧
        lj.code self.library.code = some self.longJumpCode) ∧
      LoggedBuffer.Extends map map' (self.finalWrites base off blocks) ∧
      ∀ d ∈ self.delayedEntries, (self.entryTarget base off blocks d.target).isSome ∧
        d.relocation.fieldLen ≤ 8 := by
  obtain ⟨hended, hnext, hlong, st, hst, hpool⟩ := finalizePool_of_finalizeInto h
  exact ⟨hended, hnext, hlong, finalizePool_ok hst hpool⟩

/-- Every runtime symbol of a finalized block has an address. -/
theorem rtSymbols_of_finalizeInto
    (h : self.finalizeInto checks base off map blocks = some (.ok (), map')) {s : U16}
    (hs : s ∈ self.runtimeTrampolineSymbols) :
    ∃ address, self.library.rtSymbols[s.toNat]? = some address := by
  obtain ⟨-, -, -, st, -, hpool⟩ := finalizePool_of_finalizeInto h
  simp only [finalizePool, Option.bind_eq_bind] at hpool
  obtain ⟨m1, -, hpool⟩ := Option.bind_eq_some_iff.1 hpool
  obtain ⟨symbols, hsymbols, -⟩ := Option.bind_eq_some_iff.1 hpool
  obtain ⟨address, -, haddress⟩ := result_of_mapM hsymbols hs
  exact ⟨address, haddress⟩

end Ok

end PatchBlock

end Patchouly.Patch
