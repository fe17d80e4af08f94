import Patchouly.Patch.Pruning

/-!
# Sound stencils

Whether a call is clean depends on the block it meets. `SoundStencil` is a condition on a stencil alone:
its fields are sorted, and its end is not mistaken for a jump that falls through. `SoundCall` asks it of
the stencil that a call selects. In every run of sound calls what is cut off is a whole jump
(`SoundState.cleanCut`), so these runs are clean.
-/

set_option autoImplicit false

namespace Patchouly.Patch

open Patchouly.Lib Patchouly.Core

/-! ## Stencils -/

/-- The field of `r` ends in front of the field of `r'`. -/
def Precedes (r r' : Relocation) : Prop := r.offset.toNat + r.fieldLen ≤ r'.offset.toNat

instance : DecidableRel Precedes := fun _ _ => inferInstanceAs (Decidable (_ ≤ _))

/-- A stencil whose fields are sorted, inside its code and of whole bytes, and whose end does not look
like the empty stencil unless it is a jump. -/
structure SoundStencil (empty code : List U8) (entries : List Relocation) : Prop where
  inside : FieldsInside code entries
  sizes : ∀ r ∈ entries, r.size.toNat ∈ [8, 16, 32, 64]
  sorted : entries.Pairwise Precedes
  ending : empty = [] ∨ (∀ r ∈ entries, isJump r = false) ∨ OwnEnd empty code entries ∨
    JumpEnd empty code entries

instance (empty code : List U8) (entries : List Relocation) :
    Decidable (SoundStencil empty code entries) :=
  decidable_of_iff (FieldsInside code entries ∧ (∀ r ∈ entries, r.size.toNat ∈ [8, 16, 32, 64]) ∧
      entries.Pairwise Precedes ∧ (empty = [] ∨ (∀ r ∈ entries, isJump r = false) ∨
        OwnEnd empty code entries ∨ JumpEnd empty code entries))
    ⟨fun ⟨h1, h2, h3, h4⟩ => ⟨h1, h2, h3, h4⟩, fun h => ⟨h.inside, h.sizes, h.sorted, h.ending⟩⟩

theorem SoundStencil.wellPlaced {empty code : List U8} {entries : List Relocation}
    (h : SoundStencil empty code entries) : WellPlaced code entries :=
  ⟨h.inside, h.sizes, h.sorted.imp Or.inl⟩

theorem not_isInvalid_of_mem {relocs : List Relocation} {r : Relocation} (h : r ∈ validEntries relocs) :
    r.isInvalid = false := by
  have hall := List.all_eq_true.1 List.all_takeWhile r h
  simpa using hall

/-! ## Calls -/

section Calls

variable {MAX_REGS : Nat}

/-- The operand that an entry patches is there. A stack slot number is not written relative. -/
def EntryFits (library : StencilLibrary MAX_REGS) (c : Call MAX_REGS) (r : Relocation) : Prop :=
  match r.patchInfo with
  | some (.hole i) => i.toNat < c.emission.holes.toList.length
  | some (.stack i) => i.toNat < (stackVars c.vars).length ∧ r.relative = false
  | some (.target i) => i.toNat < c.emission.jumps.toList.length
  | some (.runtime i) => i.toNat < library.rtSymbols.length
  | none => False

instance (library : StencilLibrary MAX_REGS) (c : Call MAX_REGS) (r : Relocation) :
    Decidable (EntryFits library c r) := by
  unfold EntryFits
  split <;> infer_instance

/-- A selected stencil with sound code, whose entries fit the call. -/
def SoundSelection (library : StencilLibrary MAX_REGS) (c : Call MAX_REGS) (sel : SelectedStencil) :
    Prop :=
  ∃ code ∈ sel.stencil.code library.code,
    ∃ relocs ∈ sel.stencil.relocations c.emission.stencil,
      SoundStencil library.empty code (validEntries relocs) ∧
        ∀ r ∈ validEntries relocs, EntryFits library c r

instance (library : StencilLibrary MAX_REGS) (c : Call MAX_REGS) (sel : SelectedStencil) :
    Decidable (SoundSelection library c sel) :=
  inferInstanceAs (Decidable (∃ code ∈ sel.stencil.code library.code, _))

/-- **A sound call**: its register numbers do not overflow, and if there are such registers, `select`
finds a sound stencil or none. -/
def SoundCall (library : StencilLibrary MAX_REGS) (c : Call MAX_REGS) : Prop :=
  (∀ v ∈ c.vars, v ≠ .register 0xFFFF) ∧
    ((∀ v ∈ c.vars, v.digit < MAX_REGS) →
      ∃ selected ∈ c.selected, ∀ sel ∈ selected, SoundSelection library c sel)

instance (library : StencilLibrary MAX_REGS) (c : Call MAX_REGS) : Decidable (SoundCall library c) :=
  inferInstanceAs (Decidable (_ ∧ (_ → ∃ selected ∈ c.selected, _)))

end Calls

/-! ## The invariant of sound runs -/

section Invariant

variable {MAX_REGS : Nat} {library : StencilLibrary MAX_REGS} {l : Linked MAX_REGS}

/-- The delayed fields and the pending ones stand in order. -/
structure SoundState (library : StencilLibrary MAX_REGS) (l : Linked MAX_REGS) : Prop where
  same : l.block.library = library
  link : LinkState l
  stencils : ∀ s ∈ l.stencils, SoundStencil library.empty s.code s.entries ∧
    ∀ r ∈ s.entries, r.isInvalid = false
  delayed : l.block.relocations.Pairwise fun d d' => d.fieldEnd ≤ d'.location
  pending : l.block.nextRelocations.Pairwise fun d d' => d.fieldEnd ≤ d'.location
  runtime : ∀ d ∈ l.block.relocations, ∀ i, d.target = .runtime i →
    i.toNat < library.rtSymbols.length

namespace SoundState

theorem start : SoundState library ⟨.new library, []⟩ := by
  constructor
  · rfl
  · exact LinkState.start
  · intro s hs
    cases hs
  · exact List.Pairwise.nil
  · exact List.Pairwise.nil
  · intro d hd
    cases hd

/-- The call's mark does not matter. -/
theorem marked (h : SoundState library l) (c : Call MAX_REGS) :
    SoundState library ⟨l.block.marked c, l.stencils⟩ :=
  ⟨h.same, ⟨h.link.placed, h.link.length, h.link.plain, h.link.delayed, h.link.pending, h.link.apart,
    h.link.target⟩, h.stencils, h.delayed, h.pending, h.runtime⟩

/-- The stencil that a pending jump belongs to is the last one. -/
theorem entry_of_pending (h : SoundState library l) {d : DelayedRelocation}
    (hd : d ∈ l.block.nextRelocations) :
    ∃ k s, EntryOf l.stencils k s d ∧ k + 1 = l.stencils.length ∧
      l.block.code.length = s.stop ∧ SoundStencil library.empty s.code s.entries ∧
        isJump d.relocation = true := by
  obtain ⟨-, k, s, hentry, hk, i, hi, -⟩ := h.link.pending d hd
  exact ⟨k, s, hentry, hk, h.link.last_stop hentry.stencil hk,
    (h.stencils s (List.mem_of_getElem? hentry.stencil)).1, isJump_iff.2 ⟨i, hi⟩⟩

/-- A byte of the last stencil's own is still there after the last jump was resolved. -/
theorem not_suffix_of_ownEnd (h : SoundState library l) {d : DelayedRelocation} {k n : Nat}
    {s : CopiedStencil} {patched : List U8} (hentry : EntryOf l.stencils k s d)
    (hk : k + 1 = l.stencils.length) (hown : OwnEnd library.empty s.code s.entries)
    (hp : applyWrites [jumpWrite n d] l.block.code = some patched) :
    ¬ library.empty <:+ patched := by
  refine OwnEnd.not_suffix hown (h.link.last_stop hentry.stencil hk) ?_ hentry.relocation
    hentry.offset hp
  intro i v hi hfree
  exact h.link.plain k s i v hentry.stencil hi hfree (kept_last (Nat.le_of_eq hk.symm))

/-- **What is cut off is a jump**: where the code ends with the empty stencil and no delayed field lies
behind the last jump, this jump is the end of its stencil. -/
theorem jumpEnd_of_suffix (h : SoundState library l) {init : List DelayedRelocation}
    {last : DelayedRelocation} {n : Nat} {patched : List U8}
    (hn : l.block.nextRelocations = init ++ [last])
    (hp : applyWrites [jumpWrite n last] l.block.code = some patched)
    (hempty : library.empty ≠ []) (hsuffix : library.empty <:+ patched)
    (hbehind : ((l.block.relocations.getLast?).map (·.location)).getD 0 < last.location) :
    ∃ k s, EntryOf l.stencils k s last ∧ k + 1 = l.stencils.length ∧
      s.entries.getLast? = some last.relocation ∧ JumpEnd library.empty s.code s.entries := by
  have hlast : last ∈ l.block.nextRelocations := by
    rw [hn]
    exact List.mem_append_right _ List.mem_cons_self
  obtain ⟨k, s, hentry, hk, hstop, hsound, hjump⟩ := h.entry_of_pending hlast
  refine ⟨k, s, hentry, hk, ?_⟩
  rcases hsound.ending with hnil | hnone | hown | hend
  · exact absurd hnil hempty
  · rw [hnone _ hentry.relocation] at hjump
    cases hjump
  · exact absurd hsuffix (h.not_suffix_of_ownEnd hentry hk hown hp)
  · refine ⟨?_, hend⟩
    obtain ⟨t, ht, hjumpT, hfield, -⟩ := hend
    rw [Option.mem_def] at ht
    have hmem := List.mem_of_getLast? ht
    have hsize := (fieldLen_pos (hsound.sizes t hmem)).1
    rw [ht, Option.some_inj]
    by_contra hne
    -- the jump at the end lies behind the last one
    have hbefore : last.fieldEnd ≤ s.start + t.offset.toNat := by
      obtain ⟨front, hfront⟩ := List.getLast?_eq_some_iff.1 ht
      have hother : last.relocation ∈ front := by
        have hin := hentry.relocation
        rw [hfront, List.mem_append, List.mem_singleton] at hin
        exact hin.resolve_right fun heq => hne heq.symm
      have hsorted := hsound.sorted
      rw [hfront, List.pairwise_append] at hsorted
      have hprec := hsorted.2.2 _ hother t (List.mem_singleton_self t)
      rw [hentry.location.2, CopiedStencil.fieldStop]
      rw [Precedes] at hprec
      omega
    obtain ⟨i, hi⟩ := isJump_iff.1 hjumpT
    obtain ⟨j, -, hlinked⟩ := h.link.target k s t i hentry.stencil hmem hi
    cases j with
    | target b =>
        -- then it is delayed, and the last delayed field is no earlier one
        obtain ⟨front, d, hdelayed⟩ : ∃ front d, l.block.relocations = front ++ [d] :=
          ⟨_, _, (List.dropLast_append_getLast (List.ne_nil_of_mem hlinked)).symm⟩
        have hle : s.start + t.offset.toNat ≤ d.location := by
          have hin : (⟨s.start, t, .block b⟩ : DelayedRelocation) ∈ front ++ [d] := hdelayed ▸ hlinked
          rcases List.mem_append.1 hin with hin | hin
          · have hsorted := h.delayed
            rw [hdelayed, List.pairwise_append] at hsorted
            have hprec := hsorted.2.2 _ hin d (List.mem_singleton_self d)
            exact Nat.le_trans (Nat.le_add_right _ _) hprec
          · rw [← List.mem_singleton.1 hin]
            exact Nat.le_refl _
        rw [hdelayed, List.getLast?_append, List.getLast?_singleton, Option.some_or, Option.map_some,
          Option.getD_some] at hbehind
        rw [DelayedRelocation.fieldEnd] at hbefore
        omega
    | next =>
        -- then it is pending, and stands behind the last one
        rcases hlinked with ⟨-, hpending⟩ | ⟨s', hs', -⟩
        · rw [hn, List.mem_append, List.mem_singleton] at hpending
          rcases hpending with hpending | hpending
          · have hsorted := h.pending
            rw [hn, List.pairwise_append] at hsorted
            have hprec := hsorted.2.2 _ hpending last (List.mem_singleton_self last)
            simp only [DelayedRelocation.fieldEnd, DelayedRelocation.location] at hprec hbefore
            omega
          · exact hne (congrArg (·.relocation) hpending)
        · have hlt := (List.getElem?_eq_some_iff.1 hs').1
          omega

/-- The fields that a cut leaves, when the stencil of the last jump ends with it. -/
theorem le_of_jumpEnd (h : SoundState library l) {last : DelayedRelocation} {k : Nat}
    {s : CopiedStencil} (hentry : EntryOf l.stencils k s last) (hk : k + 1 = l.stencils.length)
    (hlast : s.entries.getLast? = some last.relocation) (hend : JumpEnd library.empty s.code s.entries) :
    last.fieldEnd = l.block.code.length ∧
      l.block.code.length - library.empty.length ≤ last.location ∧
        ∀ m < l.stencils.length, ∀ s' ∈ l.stencils[m]?, ∀ r ∈ s'.entries,
          (m + 1 = l.stencils.length → r ≠ last.relocation) →
            Kept l.stencils m (s'.fieldStop r) →
              s'.fieldStop r ≤ l.block.code.length - library.empty.length := by
  obtain ⟨t, ht, -, hfield, hfits, hlow, hothers⟩ := hend
  obtain rfl : last.relocation = t := Option.some.inj (hlast.symm.trans ht)
  have hstop := h.link.last_stop hentry.stencil hk
  rw [CopiedStencil.stop] at hstop
  obtain ⟨hloc, hfieldEnd⟩ := hentry.location
  rw [CopiedStencil.fieldStop] at hfieldEnd
  refine ⟨by omega, by omega, ?_⟩
  intro m hm s' hs' r hr hne hkept
  rw [Option.mem_def] at hs'
  rcases Nat.eq_or_lt_of_le (show m + 1 ≤ l.stencils.length by omega) with heq | hlt
  · obtain rfl : m = k := by omega
    obtain rfl : s' = s := Option.some.inj (hs'.symm.trans hentry.stencil)
    obtain ⟨front, hfront⟩ := List.getLast?_eq_some_iff.1 hlast
    rw [hfront, List.dropLast_concat] at hothers
    rw [hfront, List.mem_append, List.mem_singleton] at hr
    have hother := hothers r (hr.resolve_right (hne heq))
    rw [CopiedStencil.fieldStop]
    omega
  · -- an older stencil ends where the last one starts
    have hstart := hkept.le_start (show m < k by omega) hentry.stencil
    omega

/-- **Every cut of a sound run is clean.** -/
theorem cleanCut (h : SoundState library l) {c : Call MAX_REGS} {settled : PatchBlock MAX_REGS}
    (hsettles : PatchBlock.Settles (l.block.marked c) settled) : CleanCut l settled.code.length := by
  intro hshort
  cases hsettles with
  | idle hn hc =>
      rw [hc] at hshort
      exact absurd hshort (Nat.lt_irrefl _)
  | jump init last patched hn hp hcut hw =>
      have hlen : patched.length = l.block.code.length := applyWrites_length hp
      rcases hcut with heq | ⟨hsuffix, heq, hbehind⟩
      · omega
      · replace hsuffix : l.block.library.empty <:+ patched := hsuffix
        replace heq : settled.code.length = patched.length - l.block.library.empty.length := heq
        rw [h.same] at hsuffix heq
        have hempty : library.empty ≠ [] := by
          intro hnil
          rw [hnil, List.length_nil] at heq
          omega
        obtain ⟨k, s, hentry, hk, hlast, hend⟩ := h.jumpEnd_of_suffix hn hp hempty hsuffix hbehind
        rw [heq, hlen]
        refine ⟨last, ?_, h.le_of_jumpEnd hentry hk hlast hend⟩
        rw [show l.block.nextRelocations = init ++ [last] from hn, List.getLast?_append,
          List.getLast?_singleton, Option.some_or]
        exact rfl

/-- Copying a sound stencil is the step of the linking law. -/
theorem copying (h : SoundState library l) {checks wide : Bool} {b' settled : PatchBlock MAX_REGS}
    {c : Call MAX_REGS} {code : List U8} {relocs : List Relocation}
    (hcopy : l.block.Copies checks b' c wide settled code relocs)
    (hsound : SoundStencil library.empty code (validEntries relocs)) :
    Copying l.block b' ⟨settled.code.length, code, validEntries relocs, c.emission.jumps.toList⟩ := by
  refine copying_of_copies hcopy hsound.wellPlaced h.link.apart fun hshort last hlast => ?_
  obtain ⟨last', hlast', hend, -, -⟩ := h.cleanCut hcopy.settles hshort
  obtain rfl : last' = last := Option.some.inj (hlast'.symm.trans hlast)
  omega

/-- Entries that were filed for one stencil stand in order. -/
theorem pairwise_of_sublist {entries : List Relocation} (hsorted : entries.Pairwise Precedes)
    {new : List DelayedRelocation} {start : Nat} (hsub : (new.map (·.relocation)).Sublist entries)
    (hstart : ∀ d ∈ new, d.offset = start) : new.Pairwise fun d d' => d.fieldEnd ≤ d'.location := by
  apply (List.pairwise_map.1 (hsorted.sublist hsub)).imp_of_mem
  intro d d' hd hd' hprec
  rw [DelayedRelocation.fieldEnd, DelayedRelocation.location, DelayedRelocation.location, hstart d hd,
    hstart d' hd']
  rw [Precedes] at hprec
  omega

/-- **A call with a sound stencil keeps the invariant.** -/
theorem copied (h : SoundState library l) {checks wide : Bool} {b' settled : PatchBlock MAX_REGS}
    {c : Call MAX_REGS} {code : List U8} {relocs : List Relocation}
    (hcopy : l.block.Copies checks b' c wide settled code relocs)
    (hsound : SoundStencil library.empty code (validEntries relocs)) :
    SoundState library ⟨b', l.stencils ++
      [⟨settled.code.length, code, validEntries relocs, c.emission.jumps.toList⟩]⟩ := by
  have hcut := h.cleanCut hcopy.settles
  have hcopying := h.copying hcopy hsound
  have hlink := h.link.step hsound.wellPlaced hcut hcopying
  obtain ⟨-, -, hrel, -, hnil⟩ := PatchBlock.settleNext_cases hcopy.settle
  obtain ⟨new, hnew, hsub, hfiled⟩ := hcopy.effect.relocations
  obtain ⟨pend, hpend, hpsub, hpfiled⟩ := hcopy.effect.pending
  replace hnew : b'.relocations = l.block.relocations ++ new := hnew.trans (congrArg (· ++ new) hrel)
  replace hpend : b'.nextRelocations = pend := hpend.trans (by rw [show _ = [] from hnil]; rfl)
  have hlibrary : b'.library = library := hcopy.library.trans h.same
  constructor
  · exact hlibrary
  · exact hlink
  · intro s hs
    rcases List.mem_append.1 hs with hs | hs
    · exact h.stencils s hs
    · obtain rfl := List.mem_singleton.1 hs
      refine ⟨hsound, fun r hr => ?_⟩
      exact not_isInvalid_of_mem hr
  · rw [show (_ : Linked MAX_REGS).block.relocations = _ from hnew, List.pairwise_append]
    refine ⟨h.delayed, pairwise_of_sublist hsound.sorted hsub fun d hd => (hfiled d hd).1, ?_⟩
    intro d hd d' hd'
    have hend := h.link.delayed_survives hcopying hcut hd
    have hoff := (hfiled d' hd').1
    rw [DelayedRelocation.location, hoff]
    exact Nat.le_trans hend (Nat.le_add_right _ _)
  · rw [show (_ : Linked MAX_REGS).block.nextRelocations = _ from hpend]
    exact pairwise_of_sublist hsound.sorted hpsub fun d hd => (hpfiled d hd).1
  · intro d hd i hi
    replace hd : d ∈ l.block.relocations ++ new := hnew ▸ hd
    rcases List.mem_append.1 hd with hd | hd
    · exact h.runtime d hd i hi
    · have hfor := (hfiled d hd).2.2
      rw [hlibrary] at hfor
      cases hfor with
      | runtime hs hlt =>
          cases hi
          exact hlt
      | block hi' hj => cases hi
      | next hi' hj => cases hi
      | constant hi' hv hc => cases hi

end SoundState

end Invariant

end Patchouly.Patch
