import Patchouly.Patch.Pruning
import Mathlib.Data.List.Nodup

/-!
# Pending relocations

`copy_and_patch` files what it cannot patch: a jump to the following stencil in `next_relocations`, all
else in `relocations`. The next call resolves the first list and may cut the code. A `Traced` block keeps
the stencils that were copied and the jumps that were resolved.

When the entries of every stencil are sorted and no cut removes a field, both lists are sorted, have no
field in common, lie inside the code and account for every jump that was copied (`pending_relocations`).
-/

set_option autoImplicit false

namespace Patchouly.Patch

open Patchouly.Lib Patchouly.Core

variable {MAX_REGS : Nat}

/-- The pending jumps that a call resolves: all of them if it succeeds. -/
def Linked.resolves (checks : Bool) (l : Linked MAX_REGS) (c : Call MAX_REGS) :
    List DelayedRelocation :=
  match l.block.call checks c with
  | some (.ok (), _) => l.block.nextRelocations
  | _ => []

/-- A block with the stencils copied into it and a record of the jumps to a following stencil that later
calls have resolved. -/
abbrev Traced (MAX_REGS : Nat) := System.Recorded (Linked MAX_REGS) DelayedRelocation

/-- All sequences of calls. A call that fails copies and resolves nothing. -/
def tracedSystem (checks : Bool) (library : StencilLibrary MAX_REGS) :
    System (Traced MAX_REGS) (Call MAX_REGS) :=
  (callSystem checks library).recorded (Linked.resolves checks)

/-- The field starts and ends inside code of length `len`. -/
def InsideCode (len : Nat) (d : DelayedRelocation) : Prop := d.location < len ∧ d.fieldEnd ≤ len

instance (len : Nat) (d : DelayedRelocation) : Decidable (InsideCode len d) :=
  inferInstanceAs (Decidable (_ ∧ _))

theorem InsideCode.mono {len len' : Nat} {d : DelayedRelocation} (h : InsideCode len d)
    (hle : len ≤ len') : InsideCode len' d :=
  ⟨h.1.trans_le hle, h.2.trans hle⟩

/-- The entries are strictly sorted by offset, and their fields start and end inside the code. -/
def SortedEntries (code : List U8) (entries : List Relocation) : Prop :=
  entries.Pairwise (fun r r' => r.offset.toNat < r'.offset.toNat) ∧
    ∀ r ∈ entries, r.offset.toNat < code.length ∧ r.offset.toNat + r.fieldLen ≤ code.length

instance (code : List U8) (entries : List Relocation) : Decidable (SortedEntries code entries) :=
  inferInstanceAs (Decidable (_ ∧ _))

/-- A call with a sorted stencil whose cut removes no delayed field, and no pending one but that of the
popped jump. -/
def SortedCall (checks : Bool) (t : Traced MAX_REGS) (c : Call MAX_REGS) : Prop :=
  ∀ p ∈ t.state.block.copied checks c, SortedEntries p.2.1 (validEntries p.2.2) ∧
    ∀ d ∈ t.state.block.relocations ++ t.state.block.nextRelocations.dropLast,
      InsideCode t.state.block.code.length d → InsideCode p.1.code.length d

instance (checks : Bool) (t : Traced MAX_REGS) (c : Call MAX_REGS) :
    Decidable (SortedCall checks t c) :=
  inferInstanceAs (Decidable (∀ p ∈ t.state.block.copied checks c, _ ∧ _))

/-! ## Jumps to blocks -/

/-- Whether a delayed entry is a jump to a block. -/
def isBlockJump (d : DelayedRelocation) : Bool :=
  match d.target with
  | .block _ => true
  | _ => false

/-- The delayed entry of a jump to a block. -/
def blockJump (jumps : List JumpTarget) (offset : Nat) (r : Relocation) : Option DelayedRelocation :=
  match r.patchInfo with
  | some (.target i) =>
      match jumps[i.toNat]? with
      | some (.target t) => some ⟨offset, r, .block t⟩
      | _ => none
  | _ => none

/-- The jumps of a stencil to blocks, as they are filed. -/
def CopiedStencil.blockJumps (s : CopiedStencil) : List DelayedRelocation :=
  s.entries.filterMap (blockJump s.jumps s.start)

namespace PatchBlock

variable {checks wide : Bool} {offset : Nat} {vars holes : List Usize} {jumps : List JumpTarget}

/-- One entry adds at most its own jump to a block. -/
theorem Patches.blockJumps_eq {b b' : PatchBlock MAX_REGS} {r : Relocation}
    (h : Patches b b' wide offset vars holes jumps r) :
    b'.relocations.filter isBlockJump =
      b.relocations.filter isBlockJump ++ [r].filterMap (blockJump jumps offset) := by
  cases h with
  | written value ht hv hw hb =>
      have hnone : blockJump jumps offset r = none := by
        rw [blockJump]
        split
        · next i hi => exact absurd hi (ht i)
        · rfl
      rw [List.filterMap_cons_none hnone, hb]
      exact (List.append_nil _).symm
  | delayed t more hne ht hb =>
      rw [hb, List.filter_append]
      congr 1
      cases ht with
      | block hi hj => simp [blockJump, hi, hj, isBlockJump]
      | next hi hj => exact absurd rfl hne
      | runtime hs hlt => simp [blockJump, hs, isBlockJump]
      | constant hi hv hc => simp [blockJump, hi, isBlockJump]
  | pending ht hb =>
      have hnone : blockJump jumps offset r = none := by
        cases ht with
        | next hi hj => simp [blockJump, hi, hj]
      rw [List.filterMap_cons_none hnone, hb]
      exact (List.append_nil _).symm

/-- The jumps of a copied stencil to blocks, in order. -/
theorem patchEntries_blockJumps {relocs : List Relocation} {b b' : PatchBlock MAX_REGS}
    (h : patchEntries checks wide offset vars holes jumps relocs b = some b') :
    b'.relocations.filter isBlockJump = b.relocations.filter isBlockJump ++
      (validEntries relocs).filterMap (blockJump jumps offset) := by
  refine patchEntries_appends (fun b => b.relocations.filter isBlockJump)
    (fun rs => rs.filterMap (blockJump jumps offset)) rfl ?_
    (fun _ _ _ _ hp => (patchEntry_cases hp).blockJumps_eq) rfl h
  intro r rs
  rw [← List.filterMap_append, List.singleton_append]

end PatchBlock

/-! ## One stencil -/

/-- What a successful call files for the stencil `s`: `new` behind the delayed entries, and the pending
jumps of `s` in place of those before. -/
structure Files (b b' : PatchBlock MAX_REGS) (s : CopiedStencil) (new : List DelayedRelocation) :
    Prop where
  relocations : b'.relocations = b.relocations ++ new
  pending : b'.nextRelocations = s.pending
  length : b'.code.length = s.stop
  entries : (new.map (·.relocation)).Sublist s.entries
  offset : ∀ d ∈ new, d.offset = s.start
  notNext : ∀ d ∈ new, isNext s.jumps d.relocation = false
  blocks : new.filter isBlockJump = s.blockJumps
  targets : ∀ r ∈ s.entries, ∀ i, r.patchInfo = some (.target i) →
    ∃ j, s.jumps[i.toNat]? = some j ∧ (⟨s.start, r, PatchBlock.jumpTarget j⟩ : DelayedRelocation) ∈
      b'.relocations ++ b'.nextRelocations

theorem files_of_copies {checks wide : Bool} {b b' settled : PatchBlock MAX_REGS} {c : Call MAX_REGS}
    {code : List U8} {relocs : List Relocation}
    (h : PatchBlock.Copies checks b b' c wide settled code relocs) :
    ∃ new, Files b b'
      ⟨settled.code.length, code, validEntries relocs, c.emission.jumps.toList⟩ new := by
  obtain ⟨-, -, hrel, -, hnil⟩ := PatchBlock.settleNext_cases h.settle
  have hsettled : settled.relocations = b.relocations := hrel
  obtain ⟨new, hnew, hsub, hfiled⟩ := h.effect.relocations
  have hpending := PatchBlock.patchEntries_pending h.patch
  have hblocks := PatchBlock.patchEntries_blockJumps h.patch
  simp only [hnil, List.nil_append] at hpending
  simp only [hsettled] at hnew hblocks
  rw [hnew, List.filter_append] at hblocks
  refine ⟨new, hnew, hpending, h.code_length, hsub, fun d hd => (hfiled d hd).1, ?_,
    List.append_cancel_left hblocks, h.effect.jumps⟩
  intro d hd
  obtain ⟨-, hne, hfor⟩ := hfiled d hd
  -- a jump to the following stencil is filed with the target `Next`
  rw [isNext]
  split
  · next i hi =>
    obtain ⟨j, hj, htarget⟩ := hfor.jump hi
    refine decide_eq_false fun hjn => hne ?_
    obtain rfl := Option.some.inj (hj.symm.trans hjn)
    exact htarget
  · rfl

section Stencil

variable {s : CopiedStencil} {filed : List DelayedRelocation}

theorem mem_pending {d : DelayedRelocation} (h : d ∈ s.pending) :
    d.relocation ∈ s.entries ∧ d.offset = s.start ∧ isNext s.jumps d.relocation = true := by
  obtain ⟨r, hr, rfl⟩ := List.mem_map.1 h
  obtain ⟨hmem, hnext⟩ := List.mem_filter.1 hr
  exact ⟨hmem, rfl, hnext⟩

theorem pending_sublist (s : CopiedStencil) :
    (s.pending.map (·.relocation)).Sublist s.entries := by
  rw [CopiedStencil.pending, List.map_map]
  exact (List.map_id _).symm ▸ List.filter_sublist

/-- Entries that are filed in order have increasing locations. -/
theorem pairwise_of_filed (hsorted : SortedEntries s.code s.entries)
    (hsub : (filed.map (·.relocation)).Sublist s.entries) (hoff : ∀ d ∈ filed, d.offset = s.start) :
    filed.Pairwise fun d e => d.location < e.location := by
  have hpair := List.pairwise_map.1 (hsorted.1.sublist hsub)
  refine hpair.imp_of_mem ?_
  intro d e hd he hlt
  rw [DelayedRelocation.location, DelayedRelocation.location, hoff d hd, hoff e he]
  omega

/-- An entry is known by its offset. -/
theorem eq_of_offset (hsorted : SortedEntries s.code s.entries) {r r' : Relocation}
    (hr : r ∈ s.entries) (hr' : r' ∈ s.entries) (h : r.offset.toNat = r'.offset.toNat) : r = r' := by
  have hnodup : (s.entries.map fun r => r.offset.toNat).Nodup :=
    List.pairwise_map.2 (hsorted.1.imp fun hlt => hlt.ne)
  exact List.inj_on_of_nodup_map hnodup hr hr' h

/-- A filed entry of a stencil lies inside the code that ends with the stencil. -/
theorem insideCode_of_filed (hsorted : SortedEntries s.code s.entries) {d : DelayedRelocation}
    (hmem : d.relocation ∈ s.entries) (hoff : d.offset = s.start) : InsideCode s.stop d := by
  obtain ⟨hlt, hle⟩ := hsorted.2 _ hmem
  constructor
  · rw [DelayedRelocation.location, hoff, CopiedStencil.stop]
    omega
  · rw [DelayedRelocation.fieldEnd, DelayedRelocation.location, hoff, CopiedStencil.stop]
    omega

end Stencil

/-! ## The invariant -/

/-- **What holds of the two lists** in a run of sorted calls. -/
structure Accounted (t : Traced MAX_REGS) : Prop where
  delayed : t.state.block.relocations.Pairwise fun d e => d.location < e.location
  pending : t.state.block.nextRelocations =
    (t.state.stencils.getLast?.map CopiedStencil.pending).getD []
  ordered : t.state.block.nextRelocations.Pairwise fun d e => d.location < e.location
  apart : ∀ d ∈ t.state.block.relocations, ∀ e ∈ t.state.block.nextRelocations,
    d.location ≠ e.location
  blocks : t.state.block.relocations.filter isBlockJump =
    t.state.stencils.flatMap CopiedStencil.blockJumps
  nexts : t.record ++ t.state.block.nextRelocations =
    t.state.stencils.flatMap CopiedStencil.pending
  targets : ∀ s ∈ t.state.stencils, ∀ r ∈ s.entries, ∀ i, r.patchInfo = some (.target i) →
    ∃ j, s.jumps[i.toNat]? = some j ∧ (⟨s.start, r, PatchBlock.jumpTarget j⟩ : DelayedRelocation) ∈
      t.state.block.relocations ++ t.record ++ t.state.block.nextRelocations
  inside : ∀ d ∈ t.state.block.relocations ++ t.state.block.nextRelocations,
    InsideCode t.state.block.code.length d

namespace Accounted

variable {checks : Bool} {library : StencilLibrary MAX_REGS} {t t' : Traced MAX_REGS}
  {c : Call MAX_REGS}

theorem start (library : StencilLibrary MAX_REGS) :
    Accounted (⟨⟨.new library, []⟩, []⟩ : Traced MAX_REGS) where
  delayed := List.Pairwise.nil
  pending := rfl
  ordered := List.Pairwise.nil
  apart _ hd := absurd hd List.not_mem_nil
  blocks := rfl
  nexts := rfl
  targets _ hs := absurd hs List.not_mem_nil
  inside _ hd := absurd hd List.not_mem_nil

/-- **A stencil more**: its fields lie behind those that were there, inside the code. -/
theorem copy (h : Accounted t) {b : PatchBlock MAX_REGS} {s : CopiedStencil}
    {new : List DelayedRelocation} (hf : Files t.state.block b s new)
    (hsorted : SortedEntries s.code s.entries)
    (hkeep : ∀ d ∈ t.state.block.relocations, InsideCode s.start d) :
    Accounted ⟨⟨b, t.state.stencils ++ [s]⟩, t.record ++ t.state.block.nextRelocations⟩ := by
  have hnew : ∀ d ∈ new, d.relocation ∈ s.entries ∧ s.start ≤ d.location := by
    intro d hd
    refine ⟨hf.entries.subset (List.mem_map_of_mem hd), ?_⟩
    rw [DelayedRelocation.location, hf.offset d hd]
    exact Nat.le_add_right _ _
  have hpend : ∀ e ∈ s.pending, s.start ≤ e.location := by
    intro e he
    rw [DelayedRelocation.location, (mem_pending he).2.1]
    exact Nat.le_add_right _ _
  refine ⟨?_, ?_, ?_, ?_, ?_, ?_, ?_, ?_⟩
  · simp only [hf.relocations]
    refine List.pairwise_append.2 ⟨h.delayed, pairwise_of_filed hsorted hf.entries hf.offset, ?_⟩
    intro d hd e he
    exact (hkeep d hd).1.trans_le (hnew e he).2
  · rw [List.getLast?_concat]
    exact hf.pending
  · simp only [hf.pending]
    exact pairwise_of_filed hsorted (pending_sublist s) fun d hd => (mem_pending hd).2.1
  · simp only [hf.relocations, hf.pending]
    intro d hd e he heq
    obtain ⟨hentry, hoff, hnext⟩ := mem_pending he
    rcases List.mem_append.1 hd with hd | hd
    · exact absurd heq ((hkeep d hd).1.trans_le (hpend e he)).ne
    · -- one entry is not filed twice
      rw [DelayedRelocation.location, DelayedRelocation.location, hf.offset d hd, hoff] at heq
      have hsame := eq_of_offset hsorted (hnew d hd).1 hentry (Nat.add_left_cancel heq)
      have hnot := hf.notNext d hd
      rw [hsame, hnext] at hnot
      cases hnot
  · simp only [hf.relocations, List.filter_append, h.blocks, hf.blocks, List.flatMap_append,
      List.flatMap_singleton]
  · simp only [hf.pending, h.nexts, List.flatMap_append, List.flatMap_singleton]
  · intro s' hs' r hr i hi
    rcases List.mem_append.1 hs' with hs' | hs'
    · obtain ⟨j, hj, hmem⟩ := h.targets s' hs' r hr i hi
      refine ⟨j, hj, ?_⟩
      simp only [hf.relocations, List.mem_append] at hmem ⊢
      tauto
    · obtain rfl := List.mem_singleton.1 hs'
      obtain ⟨j, hj, hmem⟩ := hf.targets r hr i hi
      refine ⟨j, hj, ?_⟩
      simp only [List.mem_append] at hmem ⊢
      tauto
  · intro d hd
    simp only [hf.relocations, hf.pending, hf.length] at hd ⊢
    rcases List.mem_append.1 hd with hd | hd
    · rcases List.mem_append.1 hd with hd | hd
      · exact (hkeep d hd).mono (Nat.le_add_right _ _)
      · exact insideCode_of_filed hsorted (hnew d hd).1 (hf.offset d hd)
    · obtain ⟨hentry, hoff, -⟩ := mem_pending hd
      exact insideCode_of_filed hsorted hentry hoff

/-- **A sorted call keeps the invariant.** -/
theorem next (h : Accounted t) (hg : SortedCall checks t c)
    (hstep : (tracedSystem checks library).step t c t') : Accounted t' := by
  obtain ⟨l', record'⟩ := t'
  obtain ⟨hn | ⟨e, hcall, hstencils⟩, hrecord⟩ := hstep
  · obtain ⟨wide, settled, code, relocs, hcall, hcopy, hcopied, hstencils⟩ := Linked.copies_of_next hn
    obtain ⟨hsorted, hcut⟩ := hg _ hcopied
    obtain ⟨new, hf⟩ := files_of_copies hcopy
    have hcopied := h.copy hf hsorted fun d hd =>
      hcut d (List.mem_append_left _ hd) (h.inside d (List.mem_append_left _ hd))
    rw [Linked.resolves, hcall] at hrecord
    rw [← hstencils, ← hrecord] at hcopied
    exact hcopied
  · -- a call that fails changes at most the mark
    rw [Linked.resolves, hcall] at hrecord
    obtain rfl : record' = t.record := hrecord.trans (List.append_nil _)
    obtain ⟨block', stencils'⟩ := l'
    obtain rfl : stencils' = t.state.stencils := hstencils
    rcases PatchBlock.call_cases hcall with ⟨-, -, ended, hb⟩ | ⟨hok, -⟩
    · obtain rfl : block' = { t.state.block with ended := ended } := hb
      exact ⟨h.delayed, h.pending, h.ordered, h.apart, h.blocks, h.nexts, h.targets, h.inside⟩
    · cases hok

end Accounted

/-- **Pending relocations.** In every run of calls whose stencils are sorted and whose cuts remove no
other field, the delayed entries and the pending jumps are sorted, are apart, lie inside the code and
account for every jump of every copied stencil. The pending jumps are those of the last stencil, and the
one that is popped is the highest. -/
theorem pending_relocations (checks : Bool) (library : StencilLibrary MAX_REGS) :
    ∀ t : Traced MAX_REGS, ((tracedSystem checks library).guard (SortedCall checks)).Reachable t →
      Accounted t ∧ ∀ last ∈ t.state.block.nextRelocations.getLast?,
        ∀ d ∈ t.state.block.nextRelocations.dropLast, d.location < last.location := by
  intro t ht
  have h : Accounted t := by
    refine System.Reachable.invariant ?_ ?_ ht
    · rintro ⟨_, _⟩ ⟨rfl, rfl⟩
      exact .start library
    · rintro t c t' - h ⟨hg, hstep⟩
      exact h.next hg hstep
  refine ⟨h, fun last hlast d hd => ?_⟩
  obtain ⟨init, hinit⟩ := List.getLast?_eq_some_iff.1 hlast
  have hordered := h.ordered
  rw [hinit, List.dropLast_concat] at hd
  rw [hinit] at hordered
  exact (List.pairwise_append.1 hordered).2.2 d hd last (List.mem_singleton_self last)

/-! ## A call, a jump and a return -/

/-- The block after a list of sorted calls. -/
def sortedRunOf (library : StencilLibrary MAX_REGS) (calls : List (Call MAX_REGS)) :
    Option (Traced MAX_REGS) :=
  System.runGuarded (System.Recorded.next (Linked.next true) (Linked.resolves true))
    (fun t c => decide (SortedCall true t c)) calls ⟨⟨.new library, []⟩, []⟩

theorem reachable_of_sortedRunOf {library : StencilLibrary MAX_REGS} {calls : List (Call MAX_REGS)}
    {t : Traced MAX_REGS} (h : sortedRunOf library calls = some t) :
    ((tracedSystem true library).guard (SortedCall true)).Reachable t := by
  have hstart : ((tracedSystem true library).guard (SortedCall true)).Reachable
      ⟨⟨.new library, []⟩, []⟩ := .init ⟨rfl, rfl⟩
  exact System.reachable_of_runGuarded
    (fun _ _ _ => System.Recorded.step_of_next fun _ _ _ => Or.inl)
    (fun _ _ h => of_decide_eq_true h) hstart h

/-- A call whose jump is cut off, a jump to a block and a call behind it. -/
def sortedCalls : List (Call 1) :=
  [.emit callFamily nil nil nil, .branch jumpFamily nil nil nil (.singleton (.target 0)),
    .emit callFamily nil nil nil]

theorem pending_relocations_calls : ∃ t, sortedRunOf sampleLibrary sortedCalls = some t ∧
    t.state.block.relocations.map (·.location) = [1, 6, 11] ∧ t.record.map (·.location) = [6] ∧
      t.state.block.nextRelocations.map (·.location) = [16] ∧ Accounted t := by
  have hrun : (sortedRunOf sampleLibrary sortedCalls).map (fun t =>
      (t.state.block.relocations.map (·.location), t.record.map (·.location),
        t.state.block.nextRelocations.map (·.location))) = some ([1, 6, 11], [6], [16]) := by
    decide +kernel
  obtain ⟨t, ht, hlists⟩ := Option.map_eq_some_iff.1 hrun
  simp only [Prod.mk.injEq] at hlists
  obtain ⟨hdelayed, hresolved, hpending⟩ := hlists
  exact ⟨t, ht, hdelayed, hresolved, hpending,
    (pending_relocations true sampleLibrary t (reachable_of_sortedRunOf ht)).1⟩

end Patchouly.Patch
