import Patchouly.Patch.Pruning

/-!
# Jumps to the following stencil

A jump to the following stencil is resolved when that stencil is emitted, with base 0; a jump to a
block is resolved in `finalizeInto`, with the real base. `next_agrees` compares the two for a block
that starts where the following stencil does. Their fields are the same exactly when the last patches over
them carry the same bytes. Where nothing that is patched later changes the fields, they agree for relative
fields; an absolute field of the first kind holds an offset inside the block, and agrees only if the field
cannot hold the difference.

`nextBytes_of_reachable` is the run lemma behind it: in every run the fields of the resolved jumps hold
what the last write to them left.
-/

set_option autoImplicit false

namespace Patchouly.Patch

open Patchouly.Lib Patchouly.Core

variable {MAX_REGS : Nat}

section Agreement

variable {base : Usize} {off start : Nat} {blocks : ProgramBlocks} {t : U16} {d : DelayedRelocation}

/-- The difference between the two ways to resolve a jump, for a jump settled at `target`. -/
theorem jumpWrite_bytes_iff {b : PatchBlock MAX_REGS} {target : Nat} (hlen : d.relocation.fieldLen ≤ 8)
    (ht : blocks.resolveTarget t = some (off + start)) :
    (jumpWrite target d).bytes = b.exactBytes base off blocks { d with target := .block t } ↔
      (2 ^ (8 * d.relocation.fieldLen) : Int) ∣ (target : Int) - start -
        if d.relocation.relative then 0 else (base.toNat : Int) + off := by
  rw [PatchBlock.jumpWrite_bytes, PatchBlock.exactBytes, leBytes_ofInt_eq_iff hlen]
  have hdiff : (target + d.relocation.addend.toInt -
        (if d.relocation.relative then (d.location : Int) else 0)) -
      b.exactValue base off blocks { d with target := .block t } =
        (target : Int) - start -
          if d.relocation.relative then 0 else (base.toNat : Int) + off := by
    simp only [PatchBlock.exactValue, PatchBlock.exactTarget, ht, Option.getD_some,
      PatchBlock.place, DelayedRelocation.location]
    cases d.relocation.relative with
    | true =>
        simp only [if_true]
        push_cast
        ring
    | false =>
        simp only [Bool.false_eq_true, if_false]
        push_cast
        ring
  rw [hdiff]

end Agreement

/-! ## Resolved jumps -/

/-- The writes that resolve the pending jumps of `s` when the following stencil starts at `next`: first
the popped one, to the end of the code before a cut. -/
def CopiedStencil.settleWrites (s : CopiedStencil) (next : Nat) : List Write :=
  (s.pending.getLast?.map (jumpWrite s.stop)).toList ++ s.pending.dropLast.map (jumpWrite next)

/-- Every jump to the following stencil is resolved. -/
theorem CopiedStencil.mem_settleWrites {s : CopiedStencil} {r : Relocation} (hr : r ∈ s.entries)
    (hjump : isNext s.jumps r = true) (next : Nat) :
    ∃ target, jumpWrite target ⟨s.start, r, .next⟩ ∈ s.settleWrites next := by
  have hmem : ⟨s.start, r, .next⟩ ∈ s.pending :=
    List.mem_map.2 ⟨r, List.mem_filter.2 ⟨hr, hjump⟩, rfl⟩
  rw [CopiedStencil.settleWrites]
  rcases List.eq_nil_or_concat' s.pending with hnil | ⟨init, last, hpending⟩
  · rw [hnil] at hmem
    cases hmem
  · rw [hpending] at hmem ⊢
    rw [List.getLast?_concat, List.dropLast_concat]
    rcases List.mem_append.1 hmem with hmem | hmem
    · exact ⟨next, List.mem_append_right _ (List.mem_map_of_mem hmem)⟩
    · obtain rfl := List.mem_singleton.1 hmem
      exact ⟨s.stop, List.mem_append_left _ List.mem_cons_self⟩

/-- A position that the jumps of a stencil were resolved at, and no cut has removed, holds the byte of the
last such write. -/
def NextBytes (l : Linked MAX_REGS) : Prop :=
  ∀ k s s', l.stencils[k]? = some s → l.stencils[k + 1]? = some s' →
    ∀ x, Kept l.stencils k (x + 1) → ∀ w ∈ s.settleWrites s'.start, w.Covers x →
      l.block.code[x]? = lastByte (s.settleWrites s'.start) x

section Runs

variable {checks wide : Bool} {library : StencilLibrary MAX_REGS} {l : Linked MAX_REGS}

/-- Resolving the jumps of the last stencil. -/
theorem LastCopied.settled_byte (hl : LastCopied library l) {c : Call MAX_REGS}
    {settled : PatchBlock MAX_REGS} (hsettles : PatchBlock.Settles (l.block.marked c) settled)
    {s : CopiedStencil} (hs : l.stencils.getLast? = some s) {x : Nat} (hx : x < settled.code.length)
    {w : Write} (hw : w ∈ s.settleWrites settled.code.length) (hc : w.Covers x) :
    settled.code[x]? = lastByte (s.settleWrites settled.code.length) x := by
  have hpending : (l.block.marked c).nextRelocations = s.pending := by
    have hpend := hl.pending
    rw [hs] at hpend
    exact hpend
  have hlength : (l.block.marked c).code.length = s.stop := by
    have hlen := hl.length
    rw [hs] at hlen
    exact hlen
  have hsome := lastByte_isSome hw hc
  cases hsettles with
  | idle hn hc =>
      rw [CopiedStencil.settleWrites, ← hpending, hn] at hw
      cases hw
  | jump init last patched hn hp hcut hwrites =>
      rw [hpending] at hn
      have hws : s.settleWrites settled.code.length =
          [jumpWrite s.stop last] ++ init.map (jumpWrite settled.code.length) := by
        rw [CopiedStencil.settleWrites, hn, List.getLast?_concat, List.dropLast_concat]
        rfl
      rw [hlength] at hp
      rw [hws, lastByte_append] at hsome ⊢
      rw [applyWrites_getElem? hwrites, List.getElem?_take_of_lt hx, applyWrites_getElem? hp,
        ← Option.or_assoc]
      exact Option.or_of_isSome hsome

/-- A call resolves the jumps of the last stencil and leaves those resolved before. -/
theorem NextBytes.copied (h : NextBytes l) (hl : LastCopied library l) {c : Call MAX_REGS}
    {b' settled : PatchBlock MAX_REGS} {code : List U8} {relocs : List Relocation}
    (hcopy : l.block.Copies checks b' c wide settled code relocs) {s₀ : CopiedStencil}
    (hstart : s₀.start = settled.code.length) : NextBytes ⟨b', l.stencils ++ [s₀]⟩ := by
  intro k s s' hs hs' x hkept w hw hc
  have hk : k < l.stencils.length := by
    have hlt := (List.getElem?_eq_some_iff.1 hs').1
    rw [List.length_append, List.length_singleton] at hlt
    omega
  obtain ⟨hold, hx⟩ := (kept_snoc hk).1 hkept
  rw [hstart] at hx
  replace hs : l.stencils[k]? = some s := by
    rw [← hs]
    exact (List.getElem?_append_left hk).symm
  have hcopied : b'.code[x]? = settled.code[x]? := hcopy.keeps_byte hx
  rcases getElem?_snoc hs' with ⟨hlt, hs'⟩ | ⟨hlast, rfl⟩
  · -- an older jump: the last stencil stands behind it
    refine hcopied.trans (Eq.trans ?_ (h k s s' hs hs' x hold w hw hc))
    refine hcopy.settles.keeps_byte hx fun d hd hin => ?_
    replace hd : d ∈ l.block.nextRelocations := hd
    rw [hl.pending, List.getLast?_eq_getElem?] at hd
    obtain ⟨m, hm⟩ : ∃ m, l.stencils[l.stencils.length - 1]? = some m :=
      ⟨_, List.getElem?_eq_getElem (by omega)⟩
    rw [hm] at hd
    obtain ⟨r, -, rfl⟩ := List.mem_map.1 hd
    have hbehind := hold.le_start (show k < l.stencils.length - 1 by omega) hm
    have hloc := hin.1
    rw [DelayedRelocation.location] at hloc
    simp only at hloc
    omega
  · -- the jumps of the last stencil
    have hs_last : l.stencils.getLast? = some s := by
      rw [List.getLast?_eq_getElem?, ← hlast, Nat.add_sub_cancel, hs]
    rw [hstart] at hw ⊢
    exact hcopied.trans (hl.settled_byte hcopy.settles hs_last hx hw hc)

/-- **In every run** the fields of the resolved jumps hold what was written to them last. -/
theorem nextBytes_of_reachable (h : (callSystem checks library).Reachable l) : NextBytes l := by
  refine System.Reachable.invariant ?_ ?_ h
  · rintro _ rfl k s s' hs
    cases hs
  · rintro l c ⟨b', stencils'⟩ hreach hl (hn | ⟨e, hcall, hsame⟩)
    · obtain ⟨wide, settled, code, relocs, -, hcopy, -, hstencils⟩ := Linked.copies_of_next hn
      replace hstencils : stencils' = l.stencils ++ _ := hstencils
      rw [hstencils]
      exact hl.copied (lastCopied_of_reachable hreach) hcopy rfl
    · replace hsame : stencils' = l.stencils := hsame
      rcases PatchBlock.call_cases hcall with ⟨-, -, ended, hb⟩ | ⟨hok, -⟩
      · replace hb : b' = { l.block with ended := ended } := hb
        rw [hsame, hb]
        exact hl
      · cases hok

/-- **In every run** the jumps to blocks are delayed. -/
theorem blockJump_delayed (h : (callSystem checks library).Reachable l) :
    ∀ s ∈ l.stencils, ∀ r ∈ s.entries, ∀ i t, r.patchInfo = some (.target i) →
      s.jumps[i.toNat]? = some (.target t) → ⟨s.start, r, .block t⟩ ∈ l.block.relocations := by
  refine System.Reachable.invariant (I := fun l => ∀ s ∈ l.stencils, ∀ r ∈ s.entries, ∀ i t,
    r.patchInfo = some (.target i) → s.jumps[i.toNat]? = some (.target t) →
      ⟨s.start, r, .block t⟩ ∈ l.block.relocations) ?_ ?_ h
  · rintro _ rfl s hs
    cases hs
  · rintro l c ⟨b', stencils'⟩ - hl (hn | ⟨e, hcall, hsame⟩) s hs r hr i t hi hj
    · obtain ⟨wide, settled, code, relocs, -, hcopy, -, hstencils⟩ := Linked.copies_of_next hn
      obtain ⟨-, -, hrel, -, hnil⟩ := PatchBlock.settleNext_cases hcopy.settle
      obtain ⟨new, hnew, -⟩ := hcopy.effect.relocations
      replace hstencils : stencils' = l.stencils ++ _ := hstencils
      replace hs : s ∈ stencils' := hs
      rw [hstencils] at hs
      rcases List.mem_append.1 hs with hs | hs
      · -- settling and copying leave the delayed entries of older stencils
        refine hnew ▸ List.mem_append_left _ ?_
        exact hrel ▸ hl s hs r hr i t hi hj
      · obtain rfl := List.mem_singleton.1 hs
        obtain ⟨j, hj', hmem⟩ := hcopy.effect.jumps r hr i hi
        obtain rfl := Option.some.inj (hj'.symm.trans hj)
        rcases List.mem_append.1 hmem with hmem | hmem
        · exact hmem
        · obtain ⟨pend, hpend, -, hfiled⟩ := hcopy.effect.pending
          rw [hpend, show _ = [] from hnil, List.nil_append] at hmem
          have htarget := (hfiled _ hmem).2.1
          cases htarget
    · replace hsame : stencils' = l.stencils := hsame
      replace hs : s ∈ stencils' := hs
      rcases PatchBlock.call_cases hcall with ⟨-, -, ended, hb⟩ | ⟨hok, -⟩
      · replace hb : b' = { l.block with ended := ended } := hb
        rw [hb]
        exact hl s (hsame ▸ hs) r hr i t hi hj
      · cases hok

end Runs

/-! ## Final jumps -/

/-- A jump of the `k`-th stencil in a run whose block was finalized at `off`; it was not cut off. -/
structure FinalJump (checks : Bool) (library : StencilLibrary MAX_REGS) (base : Usize) (off : Nat)
    (blocks : ProgramBlocks) (l : Linked MAX_REGS) (k : Nat) (s : CopiedStencil) (r : Relocation)
    (target : JumpTarget) (bytes : List U8) : Prop where
  reach : (callSystem checks library).Reachable l
  finalized : ∃ map map', l.block.finalizeInto checks base off map blocks = some (.ok (), map') ∧
    map'.bytes = bytes
  stencil : l.stencils[k]? = some s
  entry : r ∈ s.entries
  jump : ∃ i, r.patchInfo = some (.target i) ∧ s.jumps[i.toNat]? = some target
  kept : Kept l.stencils k (s.fieldStop r)

section Kept

variable (base : Usize) (off : Nat) (blocks : ProgramBlocks) (b : PatchBlock MAX_REGS)

/-- What is patched into the code of the block, in this order: the jumps of `s`, resolved when the following
stencil starts at `next`, and the delayed fields. -/
def nextPatches (s : CopiedStencil) (next : Nat) : List Write :=
  (s.settleWrites next).map (Write.shift off) ++ b.delayedEntries.map (b.entryWrite base off blocks)

/-- What is patched last over the field of `r` carries the same bytes. -/
def PatchedAlike (s : CopiedStencil) (r : Relocation) (patches patches' : List Write) : Prop :=
  ∀ x, s.start + r.offset.toNat ≤ x → x < s.fieldStop r →
    lastByte patches (off + x) = lastByte patches' (off + x)

/-- A jump to the following stencil was resolved to `target`, and what is patched later leaves its bytes:
the stencil's other jumps that are resolved behind it, and the delayed fields of the block. -/
def NextKept (s : CopiedStencil) (next target : Nat) (r : Relocation) : Prop :=
  ∃ pre post, s.settleWrites next = pre ++ jumpWrite target ⟨s.start, r, .next⟩ :: post ∧
    ((jumpWrite target ⟨s.start, r, .next⟩).shift off).KeptBy
      (post.map (Write.shift off) ++ b.delayedEntries.map (b.entryWrite base off blocks))

end Kept

section Read

variable {checks : Bool} {library : StencilLibrary MAX_REGS} {base : Usize} {off k : Nat}
  {blocks : ProgramBlocks} {l : Linked MAX_REGS} {s s' : CopiedStencil} {r : Relocation}
  {bytes : List U8}

/-- A byte of a jump to the following stencil, as it is found in the program. -/
theorem FinalJump.next_byte (h : FinalJump checks library base off blocks l k s r .next bytes)
    (hs' : l.stencils[k + 1]? = some s') {y : Nat} (hin : InField ⟨s.start, r, .next⟩ y) :
    bytes[off + y]? = lastByte (nextPatches base off blocks l.block s s'.start) (off + y) := by
  obtain ⟨map, map', hfin, rfl⟩ := h.finalized
  obtain ⟨i, hi, hj⟩ := h.jump
  obtain ⟨target, hw⟩ := CopiedStencil.mem_settleWrites h.entry
    (by rw [isNext, hi]; exact decide_eq_true hj) s'.start
  have hcov : (jumpWrite target ⟨s.start, r, .next⟩).Covers y := jumpWrite_covers.2 hin
  have hsome := lastByte_isSome hw hcov
  have hbyte := nextBytes_of_reachable h.reach k s s' h.stencil hs' y (h.kept.mono hin.2) _ hw hcov
  have hlt : y < l.block.code.length := by
    by_contra hge
    rw [← hbyte, List.getElem?_eq_none (Nat.le_of_not_lt hge)] at hsome
    cases hsome
  have hcode : (Write.mk off l.block.code).Covers (off + y) :=
    ⟨Nat.le_add_right _ _, by rw [Write.stop]; exact Nat.add_lt_add_left hlt _⟩
  rw [nextPatches, lastByte_append, lastByte_shift, ← hbyte,
    PatchBlock.byte_of_layout hfin List.mem_cons_self hcode, Write.byteAt_of_covers hcode,
    Nat.add_sub_cancel_left]

/-- A jump to the following stencil, as it is found in the program. -/
theorem FinalJump.next_read (h : FinalJump checks library base off blocks l k s r .next bytes)
    (hs' : l.stencils[k + 1]? = some s') {target : Nat}
    (hkept : NextKept base off blocks l.block s s'.start target r) :
    readBytes bytes (off + (s.start + r.offset.toNat)) r.fieldLen =
      (jumpWrite target ⟨s.start, r, .next⟩).bytes := by
  obtain ⟨pre, post, hsplit, hkept⟩ := hkept
  have hpos : (jumpWrite target ⟨s.start, r, .next⟩).pos = s.start + r.offset.toNat := by
    rw [jumpWrite, DelayedRelocation.fieldWrite_pos, Nat.zero_add, DelayedRelocation.location]
  rw [← hpos, ← jumpWrite_bytes_length target ⟨s.start, r, .next⟩]
  refine (readBytes_iff_of_lastByte (w := (jumpWrite target ⟨s.start, r, .next⟩).shift off) ?_).2 hkept
  intro x hx
  obtain ⟨y, rfl⟩ := Nat.exists_eq_add_of_le (Nat.le_trans (Nat.le_add_right off _) hx.1)
  rw [Write.covers_shift] at hx
  obtain ⟨v, hv⟩ := Option.isSome_iff_exists.1 (Write.byteAt_isSome.2 hx)
  -- in front of the patches behind it stands the jump's own
  rw [h.next_byte hs' (jumpWrite_covers.1 hx), nextPatches, hsplit, List.map_append, List.map_cons,
    List.append_assoc, List.cons_append, lastByte_append, lastByte, Write.byteAt_shift, hv]
  rw [Option.or_of_isSome (by rw [Option.isSome_or, Option.isSome_some, Bool.or_true])]

/-- A jump to a block, as it is found in the program. -/
theorem PatchBlock.target_read {b : PatchBlock MAX_REGS} {map map' : LoggedBuffer}
    {d : DelayedRelocation} (h : b.finalizeInto checks base off map blocks = some (.ok (), map'))
    (hd : d ∈ b.delayedEntries) (hkept : b.FieldKept base off blocks d) :
    readBytes map'.bytes (off + d.location) d.relocation.fieldLen = b.exactBytes base off blocks d := by
  obtain ⟨-, -, -, -, hall⟩ := finalizeInto_ok h
  rw [(readBytes_field_iff h hd).2 hkept, entryWrite_bytes (hall d hd).1]

/-- A byte of a jump to a block, as it is found in the program. -/
theorem FinalJump.target_byte {t : U16}
    (h : FinalJump checks library base off blocks l k s r (.target t) bytes) {y : Nat}
    (hin : InField ⟨s.start, r, .block t⟩ y) :
    bytes[off + y]? =
      lastByte (l.block.delayedEntries.map (l.block.entryWrite base off blocks)) (off + y) := by
  obtain ⟨map, map', hfin, rfl⟩ := h.finalized
  obtain ⟨i, hi, hj⟩ := h.jump
  have hd : ⟨s.start, r, .block t⟩ ∈ l.block.delayedEntries := by
    apply List.mem_append_left
    exact blockJump_delayed h.reach s (List.mem_of_getElem? h.stencil) r h.entry i t hi hj
  have hcov : (l.block.entryWrite base off blocks ⟨s.start, r, .block t⟩).Covers (off + y) := by
    obtain ⟨hlow, hhigh⟩ := hin
    rw [PatchBlock.entryWrite, DelayedRelocation.fieldWrite_covers]
    omega
  obtain ⟨-, -, -, hext, -⟩ := PatchBlock.finalizeInto_ok hfin
  rw [applyWrites_getElem? hext.bytes, PatchBlock.finalWrites, lastByte_append, Option.or_assoc,
    Option.or_of_isSome (lastByte_isSome (List.mem_map_of_mem hd) hcov)]

end Read

/-- Jumps that nothing patched later changes: their fields are the same exactly when the range of the field
divides the difference of the two values. -/
theorem FinalJump.kept_iff {checks : Bool} {library : StencilLibrary MAX_REGS} {base : Usize} {off : Nat}
    {l l' : Linked MAX_REGS} {k k' : Nat} {s s' following : CopiedStencil} {r : Relocation}
    {blocks blocks' : ProgramBlocks} {bytes bytes' : List U8} {t : U16} {target : Nat}
    (hnext : FinalJump checks library base off blocks l k s r .next bytes)
    (htarget : FinalJump checks library base off blocks' l' k' s' r (.target t) bytes')
    (hstart : s'.start = s.start) (hfollow : l.stencils[k + 1]? = some following)
    (ht : blocks'.resolveTarget t = some (off + following.start))
    (hkept : NextKept base off blocks l.block s following.start target r)
    (hkept' : l'.block.FieldKept base off blocks' ⟨s'.start, r, .block t⟩) :
    readBytes bytes (off + (s.start + r.offset.toNat)) r.fieldLen =
        readBytes bytes' (off + (s.start + r.offset.toNat)) r.fieldLen ↔
      (2 ^ (8 * r.fieldLen) : Int) ∣ (target : Int) - following.start -
        if r.relative then 0 else (base.toNat : Int) + off := by
  obtain ⟨map', after, hfin, rfl⟩ := htarget.finalized
  rw [hstart] at hkept'
  have hmem : ⟨s.start, r, .block t⟩ ∈ l'.block.delayedEntries := by
    obtain ⟨pre, post, hsplit, -⟩ := hkept'
    rw [hsplit]
    exact List.mem_append_right _ List.mem_cons_self
  have hlen : r.fieldLen ≤ 8 := ((PatchBlock.finalizeInto_ok hfin).2.2.2.2 _ hmem).2
  have hread := PatchBlock.target_read hfin hmem hkept'
  have hiff := @jumpWrite_bytes_iff MAX_REGS base off following.start blocks' t ⟨s.start, r, .next⟩
    l'.block target hlen ht
  exact (Eq.congr (hnext.next_read hfollow hkept) hread).trans hiff

/-- **Jumps to the following stencil and to a block.** In every two runs in which a stencil has the jump
at the same place, the finalized fields are the same exactly when the last patches over them carry the same
bytes. Where nothing that is patched later changes the two fields, this is when the range of the field
divides the distance between the place that the first was resolved to and the following stencil, less the
address of the block when the field is absolute. -/
theorem next_agrees (checks : Bool) (library : StencilLibrary MAX_REGS) (base : Usize) (off : Nat)
    (l l' : Linked MAX_REGS) (k k' : Nat) (s s' following : CopiedStencil) (r : Relocation)
    (blocks blocks' : ProgramBlocks) (bytes bytes' : List U8) (t : U16)
    (hnext : FinalJump checks library base off blocks l k s r .next bytes)
    (htarget : FinalJump checks library base off blocks' l' k' s' r (.target t) bytes')
    (hstart : s'.start = s.start) (hfollow : l.stencils[k + 1]? = some following)
    (ht : blocks'.resolveTarget t = some (off + following.start)) :
    (readBytes bytes (off + (s.start + r.offset.toNat)) r.fieldLen =
        readBytes bytes' (off + (s.start + r.offset.toNat)) r.fieldLen ↔
      PatchedAlike off s r (nextPatches base off blocks l.block s following.start)
        (l'.block.delayedEntries.map (l'.block.entryWrite base off blocks'))) ∧
    ∀ target, NextKept base off blocks l.block s following.start target r →
      l'.block.FieldKept base off blocks' ⟨s'.start, r, .block t⟩ →
        (readBytes bytes (off + (s.start + r.offset.toNat)) r.fieldLen =
            readBytes bytes' (off + (s.start + r.offset.toNat)) r.fieldLen ↔
          (2 ^ (8 * r.fieldLen) : Int) ∣ (target : Int) - following.start -
            if r.relative then 0 else (base.toNat : Int) + off) := by
  refine ⟨?_, fun target => hnext.kept_iff htarget hstart hfollow ht⟩
  have hbytes : ∀ y, s.start + r.offset.toNat ≤ y → y < s.fieldStop r →
      bytes[off + y]? = lastByte (nextPatches base off blocks l.block s following.start) (off + y) ∧
        bytes'[off + y]? =
          lastByte (l'.block.delayedEntries.map (l'.block.entryWrite base off blocks')) (off + y) := by
    intro y hlow hhigh
    refine ⟨hnext.next_byte hfollow ⟨hlow, hhigh⟩, htarget.target_byte ?_⟩
    rw [hstart]
    exact ⟨hlow, hhigh⟩
  rw [readBytes_eq_iff]
  constructor
  · intro h x hlow hhigh
    obtain ⟨hleft, hright⟩ := hbytes x hlow hhigh
    obtain ⟨i, rfl⟩ := Nat.exists_eq_add_of_le hlow
    have hi : i < r.fieldLen := by
      rw [CopiedStencil.fieldStop] at hhigh
      omega
    rw [← hleft, ← hright, ← Nat.add_assoc]
    exact h i hi
  · intro h i hi
    have hhigh : s.start + r.offset.toNat + i < s.fieldStop r := by
      rw [CopiedStencil.fieldStop]
      omega
    obtain ⟨hleft, hright⟩ := hbytes _ (Nat.le_add_right _ i) hhigh
    rw [Nat.add_assoc off, hleft, hright]
    exact h _ (Nat.le_add_right _ i) hhigh

/-- In clean runs nothing changes the fields, and a jump that was not cut off was resolved to the following
stencil: the two agree exactly when the field is relative or its range divides the address of the block. -/
theorem clean_jumps_agree {checks : Bool} {library : StencilLibrary MAX_REGS} {base : Usize} {off : Nat}
    {l l' : Linked MAX_REGS} {k k' : Nat} {s s' following : CopiedStencil} {r : Relocation}
    {blocks blocks' : ProgramBlocks} {bytes bytes' : List U8} {t : U16}
    (hclean : ((linkedSystem checks library).guard (CleanCall checks)).Reachable l)
    (hclean' : ((linkedSystem checks library).guard (CleanCall checks)).Reachable l')
    (hnext : FinalJump checks library base off blocks l k s r .next bytes)
    (htarget : FinalJump checks library base off blocks' l' k' s' r (.target t) bytes')
    (hstart : s'.start = s.start) (hfollow : l.stencils[k + 1]? = some following)
    (ht : blocks'.resolveTarget t = some (off + following.start)) :
    readBytes bytes (off + (s.start + r.offset.toNat)) r.fieldLen =
        readBytes bytes' (off + (s.start + r.offset.toNat)) r.fieldLen ↔
      r.relative = true ∨ 2 ^ (8 * r.fieldLen) ∣ base.toNat + off := by
  obtain ⟨map, after, hfin, rfl⟩ := hnext.finalized
  obtain ⟨map', after', hfin', rfl⟩ := htarget.finalized
  obtain ⟨i, hi, hj⟩ := hnext.jump
  obtain ⟨i', hi', hj'⟩ := htarget.jump
  -- both blocks are read through the linking invariant of their own run
  have hl := linkState_of_reachable hclean
  have hl' := linkState_of_reachable hclean'
  obtain ⟨s₁, hs₁, hread⟩ := hl.next_bytes hfin hnext.stencil hnext.entry hi hnext.kept hj
  obtain rfl : following = s₁ := Option.some.inj (hfollow.symm.trans hs₁)
  obtain ⟨-, hread'⟩ := hl'.target_bytes hfin' htarget.stencil htarget.entry hi' htarget.kept hj'
  have hlen : r.fieldLen ≤ 8 :=
    (fieldLen_pos ((hl.placed s (List.mem_of_getElem? hnext.stencil)).2.1 r hnext.entry)).2
  rw [hstart] at hread'
  rw [hread, hread']
  have hiff := @jumpWrite_bytes_iff MAX_REGS base off following.start blocks' t
    ⟨s.start, r, .next⟩ l'.block following.start hlen ht
  refine hiff.trans ?_
  -- the distances agree, so an absolute field differs by the place of the block
  simp only [Int.sub_self]
  cases r.relative with
  | true => simp
  | false =>
      simp only [Bool.false_eq_true, if_false, false_or, Int.zero_sub, Int.dvd_neg]
      rw [← Int.natCast_dvd_natCast]
      push_cast
      rfl

/-! ## An absolute jump -/

/-- A stencil with an absolute jump field in front of a return, alone in a program whose block 0 starts
at the return. -/
def absoluteJump (jump : JumpTarget) (base : Usize) : Option (Linked 1 × Option Unit × LoggedBuffer) :=
  (cleanRunOf sampleLibrary [.branch PatchBlock.absoluteFamily nil nil nil (.singleton jump),
    .ret retFamily nil nil]).bind fun l =>
      (l.block.finalizeInto true base 0 ⟨List.replicate 6 0, []⟩ ⟨[5]⟩).map fun p =>
        (l, p.1.toOption, p.2)

/-- The stencil with the jump. -/
def jumpingStencil (jump : JumpTarget) : CopiedStencil :=
  ⟨0, [0xE9, 0, 0, 0, 0], [PatchBlock.absoluteField], [jump]⟩

def returningStencil : CopiedStencil := ⟨5, [0xC3], [], []⟩

theorem finalJump_of_absoluteJump {jump : JumpTarget} {base : Usize} {bytes : List U8}
    {delayed : List DelayedRelocation}
    (h : (absoluteJump jump base).map (fun p =>
        (p.2.1, p.1.stencils, p.1.block.delayedEntries, p.2.2.bytes)) =
      some (some (), [jumpingStencil jump, returningStencil], delayed, bytes)) :
    ∃ l, l.stencils[1]? = some returningStencil ∧ l.block.delayedEntries = delayed ∧
      FinalJump true sampleLibrary base 0 ⟨[5]⟩ l 0 (jumpingStencil jump) PatchBlock.absoluteField jump
        bytes := by
  obtain ⟨⟨l, res, map⟩, hrun, hstate⟩ := Option.map_eq_some_iff.1 h
  simp only [Prod.mk.injEq] at hstate
  obtain ⟨rfl, hstencils, hdelayed, hbytes⟩ := hstate
  obtain ⟨l', hl, hfin⟩ := Option.bind_eq_some_iff.1 hrun
  obtain ⟨⟨out, map'⟩, hout, hp⟩ := Option.map_eq_some_iff.1 hfin
  simp only [Prod.mk.injEq] at hp
  obtain ⟨rfl, hok, rfl⟩ := hp
  have hreach : (callSystem true sampleLibrary).Reachable l' :=
    callSystem_of_linked (reachable_of_linkedRunOf (G := fun _ _ => True) (fun _ _ _ => trivial) hl).of_guard
  cases out with
  | error e => cases hok
  | ok u =>
      refine ⟨l', by rw [hstencils]; rfl, hdelayed, hreach, ⟨_, _, hout, hbytes⟩, by rw [hstencils]; rfl,
        List.mem_cons_self, ⟨0, rfl, rfl⟩, ?_⟩
      intro s' hs'
      rw [hstencils] at hs'
      obtain rfl := List.mem_singleton.1 hs'
      exact Nat.le_refl 5

/-- At a base that the field cannot tell from 0 the two jumps agree. -/
theorem next_agrees_absolute : ∃ l l', FinalJump true sampleLibrary 0x100000000 0 ⟨[5]⟩ l 0
      (jumpingStencil .next) PatchBlock.absoluteField .next [0xE9, 5, 0, 0, 0, 0xC3] ∧
    FinalJump true sampleLibrary 0x100000000 0 ⟨[5]⟩ l' 0 (jumpingStencil (.target 0))
      PatchBlock.absoluteField (.target 0) [0xE9, 5, 0, 0, 0, 0xC3] ∧
    (readBytes [0xE9, 5, 0, 0, 0, 0xC3] (0 + (0 + 1)) 4 =
        readBytes [0xE9, 5, 0, 0, 0, 0xC3] (0 + (0 + 1)) 4 ↔
      (2 ^ 32 : Int) ∣ 5 - 5 - (0x100000000 + 0)) := by
  obtain ⟨l, hfollow, hdelayed, hnext⟩ := @finalJump_of_absoluteJump .next 0x100000000
    [0xE9, 5, 0, 0, 0, 0xC3] [] (by decide +kernel)
  obtain ⟨l', -, hdelayed', htarget⟩ := @finalJump_of_absoluteJump (.target 0) 0x100000000
    [0xE9, 5, 0, 0, 0, 0xC3] [⟨0, PatchBlock.absoluteField, .block 0⟩] (by decide +kernel)
  refine ⟨l, l', hnext, htarget, (next_agrees true sampleLibrary 0x100000000 0 l l' 0 0 _ _ _ _ ⟨[5]⟩ ⟨[5]⟩
    _ _ 0 hnext htarget rfl hfollow rfl).2 5 ⟨[], [], by decide +kernel, ?_⟩ ⟨[], [], hdelayed', ?_⟩⟩
  · rw [hdelayed]
    exact Write.keptBy_nil _
  · exact Write.keptBy_nil _

/-- At the base `0x1000` the jump to the following stencil lacks the base. -/
theorem not_next_agrees : ¬ ∀ (base : Usize) (l l' : Linked 1) (s s' following : CopiedStencil)
    (r : Relocation) (bytes bytes' : List U8) (t : U16),
      FinalJump true sampleLibrary base 0 ⟨[5]⟩ l 0 s r .next bytes →
      FinalJump true sampleLibrary base 0 ⟨[5]⟩ l' 0 s' r (.target t) bytes' →
      s'.start = s.start → l.stencils[1]? = some following →
      ProgramBlocks.resolveTarget ⟨[5]⟩ t = some following.start →
      readBytes bytes (s.start + r.offset.toNat) r.fieldLen =
        readBytes bytes' (s.start + r.offset.toNat) r.fieldLen := by
  intro h
  obtain ⟨l, hfollow, -, hnext⟩ := @finalJump_of_absoluteJump .next 0x1000
    [0xE9, 5, 0, 0, 0, 0xC3] [] (by decide +kernel)
  obtain ⟨l', -, -, htarget⟩ := @finalJump_of_absoluteJump (.target 0) 0x1000
    [0xE9, 5, 0x10, 0, 0, 0xC3] [⟨0, PatchBlock.absoluteField, .block 0⟩] (by decide +kernel)
  have hsame := h _ l l' _ _ _ _ _ _ 0 hnext htarget rfl hfollow rfl
  revert hsame
  decide

end Patchouly.Patch
