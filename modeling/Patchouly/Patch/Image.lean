import Patchouly.Patch.Finish

/-!
# The image of a block

The linking law speaks of the jumps that are still there. Here the stencils of a block are followed from
one to the next: a stencil starts where the one in front of it ends, or in place of the jump that ended it
and led there (`Adjoins`). So every jump of a sound block arrives, by its field or by falling through
(`Image.jumps`), whatever was cut off.
-/

set_option autoImplicit false

namespace Patchouly.Patch

open Patchouly.Lib Patchouly.Core

/-! ## Neighbours -/

/-- How the stencil `s'` follows `s`: right behind it, or in place of the jump at its end. -/
inductive Adjoins (empty : List U8) (s s' : CopiedStencil) : Prop
  | behind (hstart : s'.start = s.stop)
  | cut (r : Relocation) (i : U16) (hlast : s.entries.getLast? = some r)
      (htarget : r.patchInfo = some (.target i)) (hnext : s.jumps[i.toNat]? = some .next)
      (hstart : s'.start + empty.length = s.stop) (hlow : s.start ≤ s'.start)
      (hcut : s'.start ≤ s.start + r.offset.toNat)
      (hothers : ∀ r' ∈ s.entries.dropLast, s.fieldStop r' ≤ s'.start)

theorem Adjoins.start_le {empty : List U8} {s s' : CopiedStencil} (h : Adjoins empty s s') :
    s.start ≤ s'.start := by
  cases h with
  | behind hstart =>
      rw [hstart]
      exact Nat.le_add_right _ _
  | cut r i hlast htarget hnext hstart hlow hcut hothers => exact hlow

/-- Each stencil of the list adjoins the one in front of it. -/
def Adjoining (empty : List U8) (stencils : List CopiedStencil) : Prop :=
  ∀ k s s', stencils[k]? = some s → stencils[k + 1]? = some s' → Adjoins empty s s'

section Adjoining

variable {empty : List U8} {stencils : List CopiedStencil} {k : Nat} {s : CopiedStencil}

/-- The starts do not decrease. -/
theorem Adjoining.start_le (h : Adjoining empty stencils) {m : Nat} {s' : CopiedStencil} (hkm : k ≤ m)
    (hs : stencils[k]? = some s) (hs' : stencils[m]? = some s') : s.start ≤ s'.start := by
  induction m, hkm using Nat.le_induction generalizing s' with
  | base =>
      obtain rfl := Option.some.inj (hs.symm.trans hs')
      exact Nat.le_refl _
  | succ m hkm ih =>
      have hlt := (List.getElem?_eq_some_iff.1 hs').1
      have hmid := List.getElem?_eq_getElem (Nat.lt_of_succ_lt hlt)
      exact Nat.le_trans (ih hmid) (h m _ _ hmid hs').start_le

/-- **A jump that was cut off** was the end of its stencil, and what it led to took its place. -/
theorem Adjoining.cut_of_not_kept (h : Adjoining empty stencils) (hs : stencils[k]? = some s)
    (hplaced : WellPlaced s.code s.entries) {r : Relocation} {i : U16} (hr : r ∈ s.entries)
    (htarget : r.patchInfo = some (.target i)) (hcut : ¬ Kept stencils k (s.fieldStop r)) :
    ∃ s', stencils[k + 1]? = some s' ∧ s.jumps[i.toNat]? = some .next ∧
      s'.start + empty.length = s.stop ∧ s'.start ≤ s.start + r.offset.toNat := by
  have hstop := hplaced.fieldStop_le hr
  have hnext : ∃ s', stencils[k + 1]? = some s' ∧ s'.start < s.fieldStop r := by
    simp only [Kept, not_forall, Nat.not_le] at hcut
    obtain ⟨later, hlater, hlt⟩ := hcut
    obtain ⟨m, hm⟩ := List.mem_iff_getElem?.1 hlater
    rw [List.getElem?_drop] at hm
    have hfirst := List.getElem?_eq_getElem (l := stencils) (i := k + 1)
      (Nat.lt_of_le_of_lt (Nat.le_add_right _ m) (List.getElem?_eq_some_iff.1 hm).1)
    exact ⟨_, hfirst, Nat.lt_of_le_of_lt (h.start_le (Nat.le_add_right _ m) hfirst hm) hlt⟩
  obtain ⟨s', hs', hlt⟩ := hnext
  refine ⟨s', hs', ?_⟩
  cases h k s s' hs hs' with
  | behind hstart => omega
  | cut r' i' hlast htarget' hjump hstart hlow hbefore hothers =>
      obtain ⟨front, hfront⟩ := List.getLast?_eq_some_iff.1 hlast
      rw [hfront, List.dropLast_concat] at hothers
      rw [hfront, List.mem_append, List.mem_singleton] at hr
      rcases hr with hr | rfl
      · have hkept := hothers r hr
        omega
      · obtain rfl : i = i' := by simpa [htarget] using htarget'
        exact ⟨hjump, hstart, hbefore⟩

end Adjoining

/-! ## Sound blocks -/

section Sound

variable {MAX_REGS : Nat} {library : StencilLibrary MAX_REGS} {l : Linked MAX_REGS}

/-- A sound state whose stencils adjoin. -/
structure JoinedState (library : StencilLibrary MAX_REGS) (l : Linked MAX_REGS) : Prop where
  sound : SoundState library l
  adjoins : Adjoining library.empty l.stencils

/-- The stencil that a settled block goes on with adjoins the last one. -/
theorem SoundState.adjoins_settled (h : SoundState library l) {c : Call MAX_REGS}
    {settled : PatchBlock MAX_REGS} (hsettles : PatchBlock.Settles (l.block.marked c) settled)
    {k : Nat} {s s₀ : CopiedStencil} (hs : l.stencils[k]? = some s) (hk : k + 1 = l.stencils.length)
    (hstart : s₀.start = settled.code.length) : Adjoins library.empty s s₀ := by
  have hstop := h.link.last_stop hs hk
  cases hsettles with
  | idle hn hc =>
      apply Adjoins.behind
      rw [hstart, hc]
      exact hstop
  | jump init last patched hn hp hcut hw =>
      have hlen : patched.length = l.block.code.length := applyWrites_length hp
      rcases hcut with heq | ⟨hsuffix, heq, hbehind⟩
      · apply Adjoins.behind
        omega
      · replace hsuffix : l.block.library.empty <:+ patched := hsuffix
        replace heq : settled.code.length = patched.length - l.block.library.empty.length := heq
        rw [h.same] at hsuffix heq
        by_cases hempty : library.empty = []
        · apply Adjoins.behind
          rw [hempty, List.length_nil] at heq
          omega
        · obtain ⟨k', s', hentry, hk', hlast, hend⟩ := h.jumpEnd_of_suffix hn hp hempty hsuffix hbehind
          obtain rfl : k' = k := by omega
          obtain rfl : s' = s := Option.some.inj (hentry.stencil.symm.trans hs)
          -- the cut jump was filed for the following stencil
          obtain ⟨-, k'', s'', hentry', hk'', i, htarget, hjump⟩ := h.link.pending last (by
            rw [show l.block.nextRelocations = init ++ [last] from hn]
            exact List.mem_append_right _ List.mem_cons_self)
          obtain rfl : k'' = k' := by omega
          obtain rfl : s'' = s' := Option.some.inj (hentry'.stencil.symm.trans hs)
          obtain ⟨t, ht, -, -, hlow, hfits, hothers⟩ := hend
          obtain rfl : last.relocation = t := Option.some.inj (hlast.symm.trans ht)
          rw [CopiedStencil.stop] at hstop
          refine .cut last.relocation i hlast htarget hjump ?_ (by omega) (by omega) ?_
          · rw [CopiedStencil.stop]
            omega
          · intro r hr
            have hother := hothers r hr
            rw [CopiedStencil.fieldStop]
            omega

/-- A block that has just been made. -/
theorem JoinedState.start : JoinedState library ⟨.new library, []⟩ := by
  refine ⟨SoundState.start, ?_⟩
  intro k s s' hs
  cases hs

theorem JoinedState.marked (h : JoinedState library l) (c : Call MAX_REGS) :
    JoinedState library ⟨l.block.marked c, l.stencils⟩ :=
  ⟨h.sound.marked c, h.adjoins⟩

/-- **A call with a sound stencil keeps the stencils joined.** -/
theorem JoinedState.copied (h : JoinedState library l) {checks wide : Bool}
    {b' settled : PatchBlock MAX_REGS} {c : Call MAX_REGS} {code : List U8} {relocs : List Relocation}
    (hcopy : l.block.Copies checks b' c wide settled code relocs)
    (hsound : SoundStencil library.empty code (validEntries relocs)) :
    JoinedState library ⟨b', l.stencils ++
      [⟨settled.code.length, code, validEntries relocs, c.emission.jumps.toList⟩]⟩ := by
  refine ⟨h.sound.copied hcopy hsound, ?_⟩
  intro k s s' hs hs'
  rcases getElem?_snoc hs with ⟨hk, hold⟩ | ⟨hk, -⟩
  · rcases getElem?_snoc hs' with ⟨hk', hold'⟩ | ⟨hk', rfl⟩
    · exact h.adjoins k s s' hold hold'
    · exact h.sound.adjoins_settled hcopy.settles hold hk' rfl
  · have hlt := (List.getElem?_eq_some_iff.1 hs').1
    rw [List.length_append, List.length_singleton] at hlt
    omega

/-! ## The image -/

/-- What the bytes of a finalized program say of the stencils of its block at `off`. Every jump has an
address: a relative field that is still there leads to it, and a jump that was cut off has its target in its
own place. The bytes outside the fields are the stencils'. -/
structure Image (empty : List U8) (base : Usize) (off : Nat) (blocks : ProgramBlocks)
    (stencils : List CopiedStencil) (bytes : List U8) : Prop where
  jumps : ∀ k s r i, stencils[k]? = some s → r ∈ s.entries → r.patchInfo = some (.target i) →
    ∃ j S, s.jumps[i.toNat]? = some j ∧ jumpAddress base off blocks stencils k j = some S ∧
      ((Kept stencils k (s.fieldStop r) ∧ (r.relative = true →
          (ofLeBytes (readBytes bytes (off + (s.start + r.offset.toNat)) r.fieldLen) : Int) =
            (S + r.addend.toInt - (base.toNat + off + (s.start + r.offset.toNat) : Nat)) %
              2 ^ r.size.toNat)) ∨
        (j = .next ∧ S + empty.length = base.toNat + off + s.stop ∧
          S ≤ base.toNat + off + (s.start + r.offset.toNat)))
  plain : ∀ k s i v, stencils[k]? = some s → s.code[i]? = some v →
    (∀ r ∈ s.entries, ¬ (r.offset.toNat ≤ i ∧ i < r.offset.toNat + r.fieldLen)) →
      Kept stencils k (s.start + i + 1) → bytes[off + (s.start + i)]? = some v

variable {checks : Bool} {base : Usize} {off : Nat} {blocks : ProgramBlocks} {map map' : LoggedBuffer}

/-- The value of a jump field that was kept. -/
theorem LinkState.jump_value (h : LinkState l)
    (hfin : l.block.finalizeInto checks base off map blocks = some (.ok (), map')) {k : Nat}
    {s : CopiedStencil} {r : Relocation} {i : U16} (hs : l.stencils[k]? = some s) (hr : r ∈ s.entries)
    (htarget : r.patchInfo = some (.target i)) (hkept : Kept l.stencils k (s.fieldStop r)) :
    ∃ j S, s.jumps[i.toNat]? = some j ∧ jumpAddress base off blocks l.stencils k j = some S ∧
      (r.relative = true →
        (ofLeBytes (readBytes map'.bytes (off + (s.start + r.offset.toNat)) r.fieldLen) : Int) =
          (S + r.addend.toInt - (base.toNat + off + (s.start + r.offset.toNat) : Nat)) %
            2 ^ r.size.toNat) := by
  have hsize := (h.placed s (List.mem_of_getElem? hs)).2.1 r hr
  have hwidth := eight_mul_fieldLen hsize
  have hle := (fieldLen_pos hsize).2
  obtain ⟨j, hj, -⟩ := h.target k s r i hs hr htarget
  cases j with
  | target t =>
      obtain ⟨⟨o, ho⟩, hread⟩ := h.target_bytes hfin hs hr htarget hkept hj
      refine ⟨.target t, base.toNat + o, hj, ?_, fun hrel => ?_⟩
      · rw [jumpAddress, ho, Option.map_some]
      · rw [hread, ← hwidth, PatchBlock.exactBytes, ofLeBytes_ofInt hle, PatchBlock.exactValue,
          PatchBlock.exactTarget, ho, Option.getD_some, PatchBlock.place, if_pos hrel,
          DelayedRelocation.location]
  | next =>
      obtain ⟨s', hs', hread⟩ := h.next_bytes hfin hs hr htarget hkept hj
      refine ⟨.next, base.toNat + off + s'.start, hj, ?_, fun hrel => ?_⟩
      · rw [jumpAddress, hs', Option.map_some]
      · -- the distance of two places does not depend on where the block lies
        rw [hread, ← hwidth, PatchBlock.jumpWrite_bytes, ofLeBytes_ofInt hle, if_pos hrel,
          DelayedRelocation.location]
        congr 1
        push_cast
        ring

/-- **The image of a sound block**, in any bytes that agree with the finalized map on the block's code. -/
theorem JoinedState.image (h : JoinedState library l)
    (hfin : l.block.finalizeInto checks base off map blocks = some (.ok (), map')) {bytes : List U8}
    (hsame : ∀ x < l.block.code.length, bytes[off + x]? = map'.bytes[off + x]?) :
    Image library.empty base off blocks l.stencils bytes := by
  have hi := h.sound.link
  constructor
  · intro k s r i hs hr htarget
    have hplaced := hi.placed s (List.mem_of_getElem? hs)
    by_cases hkept : Kept l.stencils k (s.fieldStop r)
    · obtain ⟨j, S, hj, hS, hvalue⟩ := hi.jump_value hfin hs hr htarget hkept
      refine ⟨j, S, hj, hS, Or.inl ⟨hkept, fun hrel => ?_⟩⟩
      rw [← hvalue hrel]
      congr 2
      apply readBytes_congr
      intro x hx
      have hin := hi.kept_le hs hkept (hplaced.fieldStop_le hr)
      rw [CopiedStencil.fieldStop] at hin
      rw [Nat.add_assoc]
      exact hsame _ (by omega)
    · obtain ⟨s', hs', hj, hlen, hle⟩ := h.adjoins.cut_of_not_kept hs hplaced hr htarget hkept
      refine ⟨.next, base.toNat + off + s'.start, hj, ?_, Or.inr ⟨rfl, by omega, by omega⟩⟩
      rw [jumpAddress, hs', Option.map_some]
  · intro k s i v hs hv hfree hkept
    have hlt : i < s.code.length := (List.getElem?_eq_some_iff.1 hv).1
    have hstop : s.start + i < s.stop := Nat.add_lt_add_left hlt _
    have hin := hi.kept_le hs hkept hstop
    rw [hsame _ hin, PatchBlock.code_byte_of_finalizeInto hfin hin]
    · exact hi.plain k s i v hs hv hfree hkept
    · intro d hd hfield
      obtain ⟨hentry, -⟩ := hi.own_of_inField hs hkept (Nat.le_add_right _ _) hstop hd hfield
      obtain ⟨hloc, hend⟩ := hentry.location
      obtain ⟨h1, h2⟩ := hfield
      rw [hloc] at h1
      rw [hend, CopiedStencil.fieldStop] at h2
      exact hfree _ hentry.relocation ⟨by omega, by omega⟩

theorem PatchBlock.code_length_le_extent (b : PatchBlock MAX_REGS) : b.code.length ≤ b.extent := by
  have hcode : b.code.length ≤ b.codeEnd := Nat.le_add_right _ _
  have hpool : b.poolBase ≤ b.extent := Nat.le_add_right _ _
  exact Nat.le_trans hcode (Nat.le_trans b.codeEnd_le_poolBase hpool)

/-- Finalizing a sound block writes between its offset and its end. -/
theorem SoundState.frame (h : SoundState library l) (hlong : SoundLongJump library)
    (hfin : l.block.finalizeInto checks base off map blocks = some (.ok (), map')) {x : Nat}
    (hx : x < off ∨ off + l.block.extent ≤ x) : map'.bytes[x]? = map.bytes[x]? := by
  obtain ⟨-, -, hlj, hext, -⟩ := PatchBlock.finalizeInto_ok hfin
  rw [applyWrites_getElem? hext.bytes x, lastByte_eq_none, Option.none_or]
  intro w hw hcover
  have hfields : l.block.runtimeTrampolineSymbols ≠ [] →
      FieldsInside l.block.longJumpCode l.block.longJumpEntries := by
    intro hne
    obtain ⟨lj, hsel, -⟩ := hlj hne
    obtain ⟨relocs, -, -, -, hfields, -⟩ := PatchBlock.longJump_of_sound hlong h.same hsel
    exact hfields
  obtain ⟨h1, h2⟩ := PatchBlock.finalWrites_inside (fun d hd => (PatchBlock.delayed_fits h hd).2)
    hfields hw
  obtain ⟨h3, h4⟩ := hcover
  omega

end Sound

end Patchouly.Patch
