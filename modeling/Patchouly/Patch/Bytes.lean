import Patchouly.Patch.Calls
import Mathlib.Data.List.Pairwise

/-!
# The bytes of a block after a call

A call writes the pending jumps, may cut off the end of the code, and appends one stencil. These
lemmas say which bytes change. `Settles.keeps_byte`, `Settles.settled_bytes` and `Settles.resolves` are
about the code before the copy, `Copies.keeps_byte` and `Copies.plain_byte` about the copy.
-/

set_option autoImplicit false

namespace Patchouly.Patch

open Patchouly.Lib Patchouly.Core

variable {MAX_REGS : Nat}

/-- The positions of a field. -/
def InField (d : DelayedRelocation) (x : Nat) : Prop := d.location ≤ x ∧ x < d.fieldEnd

/-- Two fields without a common position. -/
def FieldsApart (d d' : DelayedRelocation) : Prop :=
  d.fieldEnd ≤ d'.location ∨ d'.fieldEnd ≤ d.location

instance : Std.Symm FieldsApart := ⟨fun _ _ h => Or.symm h⟩

theorem FieldsApart.not_inField {d d' : DelayedRelocation} {x : Nat} (h : FieldsApart d d')
    (hx : InField d x) : ¬ InField d' x := by
  obtain ⟨h1, h2⟩ := hx
  rintro ⟨h3, h4⟩
  rcases h with h | h <;> omega

theorem jumpWrite_covers {target : Nat} {d : DelayedRelocation} {x : Nat} :
    (jumpWrite target d).Covers x ↔ InField d x := by
  rw [jumpWrite, DelayedRelocation.fieldWrite_covers, Nat.zero_add, Nat.zero_add, InField]

theorem jumpWrite_bytes_length (target : Nat) (d : DelayedRelocation) :
    (jumpWrite target d).bytes.length = d.relocation.fieldLen :=
  Relocation.fieldBytes_length _ _

/-- A field that was written last in a list of writes, all of them to fields. -/
theorem readBytes_of_writes {ws : List Write} {w : Write} {code out : List U8}
    (h : applyWrites ws code = some out) (hw : w ∈ ws)
    (huniq : ∀ v ∈ ws, ∀ x, w.Covers x → v.Covers x → v = w) :
    readBytes out w.pos w.bytes.length = w.bytes := by
  apply readBytes_eq_of_getElem?
  intro i hi
  have hcov : w.Covers (w.pos + i) := ⟨by omega, by simp only [Write.stop]; omega⟩
  rw [applyWrites_getElem? h, lastByte_of_unique hw hcov fun v hv hc => huniq v hv _ hcov hc,
    Write.byteAt_of_covers hcov, Nat.add_sub_cancel_left, List.getElem?_eq_getElem hi,
    Option.some_or]

/-- Where a pending jump goes when it is settled; the popped jump is resolved before the cut. -/
def nextTarget (b settled : PatchBlock MAX_REGS) (d : DelayedRelocation) : Nat :=
  if d ∈ b.nextRelocations.dropLast then settled.code.length else b.code.length

namespace PatchBlock

variable {b b' : PatchBlock MAX_REGS}

/-! ## Settling -/

/-- Settling changes no byte outside the pending fields. -/
theorem Settles.keeps_byte (h : Settles b b') {x : Nat} (hx : x < b'.code.length)
    (hfree : ∀ d ∈ b.nextRelocations, ¬ InField d x) : b'.code[x]? = b.code[x]? := by
  cases h with
  | idle hn hc => rw [hc]
  | jump init last patched hn hp hcut hw =>
      have hnone : ∀ ds : List DelayedRelocation, ∀ target : Nat,
          (∀ d ∈ ds, d ∈ b.nextRelocations) → lastByte (ds.map (jumpWrite target)) x = none := by
        intro ds target hds
        apply lastByte_eq_none
        intro w hmem hc
        obtain ⟨d, hd, rfl⟩ := List.mem_map.1 hmem
        exact hfree d (hds d hd) (jumpWrite_covers.1 hc)
      have hlast : lastByte [jumpWrite b.code.length last] x = none :=
        hnone [last] _ fun d hd => by
          rw [hn]
          exact List.mem_append_right _ hd
      rw [applyWrites_getElem? hw, hnone init _ fun d hd => by
          rw [hn]
          exact List.mem_append_left _ hd,
        Option.none_or, List.getElem?_take_of_lt hx, applyWrites_getElem? hp, hlast, Option.none_or]

/-- **A pending jump that was not cut off**, after settling. -/
theorem Settles.settled_bytes (h : Settles b b') (hapart : b.nextRelocations.Pairwise FieldsApart)
    {d : DelayedRelocation} (hd : d ∈ b.nextRelocations) (hin : d.fieldEnd ≤ b'.code.length) :
    readBytes b'.code d.location d.relocation.fieldLen =
      (jumpWrite (nextTarget b b' d) d).bytes := by
  cases h with
  | idle hn hc =>
      rw [hn] at hd
      cases hd
  | jump init last patched hn hp hcase hw =>
      have hdrop : b.nextRelocations.dropLast = init := by rw [hn, List.dropLast_concat]
      rw [hn] at hd hapart
      obtain ⟨hinit, -, hcross⟩ := List.pairwise_append.1 hapart
      have hpos : ∀ target, (jumpWrite target d).pos = d.location := by
        intro target
        rw [jumpWrite, DelayedRelocation.fieldWrite_pos, Nat.zero_add]
      by_cases hmem : d ∈ init
      · -- written after the cut
        have hread := readBytes_of_writes hw (List.mem_map_of_mem hmem) (by
          intro v hv x hx hc
          obtain ⟨d', hd', rfl⟩ := List.mem_map.1 hv
          by_contra hne
          have hdd : d ≠ d' := fun he => hne (by rw [he])
          exact (hinit.forall hmem hd' hdd).not_inField
            (jumpWrite_covers.1 hx) (jumpWrite_covers.1 hc))
        rw [hpos, jumpWrite_bytes_length] at hread
        rw [nextTarget, hdrop, if_pos hmem]
        exact hread
      · -- the popped jump: written before the cut, and not touched afterwards
        obtain rfl : d = last := by
          rcases List.mem_append.1 hd with hd | hd
          · exact absurd hd hmem
          · exact List.mem_singleton.1 hd
        have hread := readBytes_of_writes hp List.mem_cons_self (by
          intro v hv x _ _
          exact List.mem_singleton.1 hv)
        rw [hpos, jumpWrite_bytes_length] at hread
        rw [nextTarget, hdrop, if_neg hmem, ← hread]
        -- the later writes fill the fields of other jumps
        apply readBytes_congr
        intro x hx
        have hfield : InField d (d.location + x) :=
          ⟨Nat.le_add_right _ _, by rw [DelayedRelocation.fieldEnd]; omega⟩
        have hlt : d.location + x < b'.code.length := Nat.lt_of_lt_of_le hfield.2 hin
        have hnone : lastByte (init.map (jumpWrite b'.code.length)) (d.location + x) = none := by
          apply lastByte_eq_none
          intro w hmem hc
          obtain ⟨d', hd', rfl⟩ := List.mem_map.1 hmem
          exact (hcross d' hd' d List.mem_cons_self).not_inField (jumpWrite_covers.1 hc) hfield
        rw [applyWrites_getElem? hw, hnone, Option.none_or, List.getElem?_take_of_lt hlt]

/-- **Settling resolves the pending jumps** to the new end of the code. A jump that was cut off is
not there any more. -/
theorem Settles.resolves (h : Settles b b') (hapart : b.nextRelocations.Pairwise FieldsApart)
    (hcut : b'.code.length < b.code.length →
      ∀ last ∈ b.nextRelocations.getLast?, b'.code.length < last.fieldEnd)
    {d : DelayedRelocation} (hd : d ∈ b.nextRelocations) (hin : d.fieldEnd ≤ b'.code.length) :
    readBytes b'.code d.location d.relocation.fieldLen =
      (jumpWrite b'.code.length d).bytes := by
  have htarget : nextTarget b b' d = b'.code.length := by
    by_cases hmem : d ∈ b.nextRelocations.dropLast
    · rw [nextTarget, if_pos hmem]
    · -- the popped jump is still there, so nothing was cut
      obtain ⟨init, last, hn⟩ : ∃ init last, b.nextRelocations = init ++ [last] :=
        (List.eq_nil_or_concat' b.nextRelocations).resolve_left (List.ne_nil_of_mem hd)
      rw [hn, List.dropLast_concat] at hmem
      rw [hn, List.getLast?_concat] at hcut
      rw [hn] at hd
      obtain rfl : d = last := by
        rcases List.mem_append.1 hd with hd | hd
        · exact absurd hd hmem
        · exact List.mem_singleton.1 hd
      have hlen := h.length_le
      have hsame : b'.code.length = b.code.length := by
        by_contra hne
        have := hcut (by omega) d rfl
        omega
      rw [nextTarget, hn, List.dropLast_concat, if_neg hmem, hsame]
  rw [h.settled_bytes hapart hd hin, htarget]

/-! ## Copying -/

section Copies

variable {checks wide : Bool} {settled : PatchBlock MAX_REGS} {c : Call MAX_REGS} {code : List U8}
  {relocs : List Relocation}

/-- The copy writes behind the settled code only. -/
theorem Copies.keeps_byte (h : Copies checks b b' c wide settled code relocs) {x : Nat}
    (hx : x < settled.code.length) : b'.code[x]? = settled.code[x]? := by
  obtain ⟨ws, hws, hfields⟩ := h.effect.writes
  have hnone : lastByte ws x = none := by
    apply lastByte_eq_none
    intro w hw hc
    obtain ⟨r, -, v, rfl⟩ := hfields w hw
    have := hc.1
    simp only at this
    omega
  rw [applyWrites_getElem? hws, hnone, Option.none_or]
  exact List.getElem?_append_left hx

/-- **A stencil byte outside all fields is copied as it is.** -/
theorem Copies.plain_byte (h : Copies checks b b' c wide settled code relocs) {i : Nat} {v : U8}
    (hi : code[i]? = some v)
    (hfree : ∀ r ∈ validEntries relocs,
      ¬ (r.offset.toNat ≤ i ∧ i < r.offset.toNat + r.fieldLen)) :
    b'.code[settled.code.length + i]? = some v := by
  obtain ⟨ws, hws, hfields⟩ := h.effect.writes
  have hnone : lastByte ws (settled.code.length + i) = none := by
    apply lastByte_eq_none
    intro w hw hc
    obtain ⟨r, hr, v, rfl⟩ := hfields w hw
    obtain ⟨h1, h2⟩ := hc
    simp only [Write.stop, Relocation.fieldBytes_length] at h1 h2
    exact hfree r hr ⟨by omega, by omega⟩
  rw [applyWrites_getElem? hws, hnone, Option.none_or]
  simp only
  rw [List.getElem?_append_right (Nat.le_add_right _ _), Nat.add_sub_cancel_left, hi]

end Copies

end PatchBlock

end Patchouly.Patch
