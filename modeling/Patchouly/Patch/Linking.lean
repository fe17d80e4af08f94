import Patchouly.Patch.Bytes
import Patchouly.Patch.Fields
import Patchouly.Patch.Layout

/-!
# The linking law

A stencil is linked at three moments: most fields are patched when it is copied, its jumps to the
following stencil when that one is emitted, its jumps to other blocks in `finalizeInto`. In between
its end may be cut off. `Linked` adds to a block the list of stencils copied so far, and
`LinkState` is the invariant that ties the fields of these stencils to the code and the delayed
entries of the block. `linking_law` reads the final addresses off it.
-/

set_option autoImplicit false

namespace Patchouly.Patch

open Patchouly.Lib Patchouly.Core

/-- A stencil as it was copied: where, its code and relocation entries, and the jump targets of the
call. -/
structure CopiedStencil where
  start : Nat
  code : List U8
  entries : List Relocation
  jumps : List JumpTarget
  deriving DecidableEq

namespace CopiedStencil

/-- First position after a field. -/
def fieldStop (s : CopiedStencil) (r : Relocation) : Nat :=
  s.start + r.offset.toNat + r.fieldLen

def stop (s : CopiedStencil) : Nat := s.start + s.code.length

end CopiedStencil

/-- No later stencil starts before `stop`: the positions up to `stop` of the `k`-th stencil were not
pruned. -/
def Kept (stencils : List CopiedStencil) (k stop : Nat) : Prop :=
  ∀ s ∈ stencils.drop (k + 1), stop ≤ s.start

instance (stencils : List CopiedStencil) (k stop : Nat) : Decidable (Kept stencils k stop) :=
  inferInstanceAs (Decidable (∀ s ∈ stencils.drop (k + 1), stop ≤ s.start))

/-- Two fields of a stencil without a common position. -/
def EntriesApart (r r' : Relocation) : Prop :=
  r.offset.toNat + r.fieldLen ≤ r'.offset.toNat ∨ r'.offset.toNat + r'.fieldLen ≤ r.offset.toNat

instance : Std.Symm EntriesApart := ⟨fun _ _ h => Or.symm h⟩

instance : DecidableRel EntriesApart := fun _ _ => inferInstanceAs (Decidable (_ ∨ _))

/-- A block with the stencils copied into it. -/
structure Linked (MAX_REGS : Nat) where
  block : PatchBlock MAX_REGS
  stencils : List CopiedStencil

section Runs

variable {MAX_REGS : Nat}

/-- One successful call. -/
def Linked.next (checks : Bool) (l : Linked MAX_REGS) (c : Call MAX_REGS) :
    Option (Linked MAX_REGS) :=
  match l.block.call checks c, l.block.copied checks c with
  | some (.ok (), block), some (settled, code, relocs) =>
      some ⟨block, l.stencils ++
        [⟨settled.code.length, code, validEntries relocs, c.emission.jumps.toList⟩]⟩
  | _, _ => none

/-- **Inversion of a successful call.** -/
theorem Linked.copies_of_next {checks : Bool} {l l' : Linked MAX_REGS} {c : Call MAX_REGS}
    (h : l.next checks c = some l') : ∃ wide settled code relocs,
      l.block.call checks c = some (.ok (), l'.block) ∧
        PatchBlock.Copies checks l.block l'.block c wide settled code relocs ∧
        l.block.copied checks c = some (settled, code, relocs) ∧
          l'.stencils = l.stencils ++
            [⟨settled.code.length, code, validEntries relocs, c.emission.jumps.toList⟩] := by
  rw [Linked.next] at h
  split at h
  · next block settled code relocs hcall hcopied =>
    obtain rfl := Option.some.inj h
    rcases PatchBlock.call_cases hcall with ⟨e, he, -⟩ | ⟨-, wide, settled', code', relocs', hcopy⟩
    · cases he
    · have hsame := hcopied.symm.trans (hcopy.copied hcall)
      simp only [Option.some.injEq, Prod.mk.injEq] at hsame
      obtain ⟨rfl, rfl, rfl⟩ := hsame
      exact ⟨wide, settled, code, relocs, hcall, hcopy, hcopied, rfl⟩
  · cases h

/-- All sequences of successful calls. -/
def linkedSystem (checks : Bool) (library : StencilLibrary MAX_REGS) :
    System (Linked MAX_REGS) (Call MAX_REGS) where
  init l := l = ⟨.new library, []⟩
  step l c l' := l.next checks c = some l'

/-- The relocation fields are 8, 16, 32 or 64 bits wide, lie inside the code and do not overlap. -/
def WellPlaced (code : List U8) (entries : List Relocation) : Prop :=
  FieldsInside code entries ∧ (∀ r ∈ entries, r.size.toNat ∈ [8, 16, 32, 64]) ∧
    entries.Pairwise EntriesApart

/-- A cut to `len` removes a suffix that ends with the field of the popped jump and contains nothing
of another field. -/
def CleanCut (l : Linked MAX_REGS) (len : Nat) : Prop :=
  len < l.block.code.length →
    ∃ last ∈ l.block.nextRelocations.getLast?,
      last.fieldEnd = l.block.code.length ∧ len ≤ last.location ∧
        ∀ k < l.stencils.length, ∀ s ∈ l.stencils[k]?, ∀ r ∈ s.entries,
          (k + 1 = l.stencils.length → r ≠ last.relocation) →
            Kept l.stencils k (s.fieldStop r) → s.fieldStop r ≤ len

/-- A call with a well placed stencil whose cut is clean. -/
def CleanCall (checks : Bool) (l : Linked MAX_REGS) (c : Call MAX_REGS) : Prop :=
  ∀ p ∈ l.block.copied checks c,
    WellPlaced p.2.1 (validEntries p.2.2) ∧ CleanCut l p.1.code.length

instance (code : List U8) (entries : List Relocation) : Decidable (WellPlaced code entries) :=
  inferInstanceAs (Decidable (_ ∧ _ ∧ _))

instance (l : Linked MAX_REGS) (len : Nat) : Decidable (CleanCut l len) :=
  inferInstanceAs (Decidable (_ → _))

instance (checks : Bool) (l : Linked MAX_REGS) (c : Call MAX_REGS) :
    Decidable (CleanCall checks l c) :=
  inferInstanceAs (Decidable (∀ p ∈ l.block.copied checks c, _ ∧ _))

end Runs

theorem eight_mul_fieldLen {r : Relocation} (h : r.size.toNat ∈ [8, 16, 32, 64]) :
    8 * r.fieldLen = r.size.toNat := by
  simp only [List.mem_cons, List.not_mem_nil, or_false] at h
  rw [Relocation.fieldLen]
  omega

/-- A field has a byte. -/
theorem fieldLen_pos {r : Relocation} (h : r.size.toNat ∈ [8, 16, 32, 64]) :
    0 < r.fieldLen ∧ r.fieldLen ≤ 8 := by
  simp only [List.mem_cons, List.not_mem_nil, or_false] at h
  rw [Relocation.fieldLen]
  omega

/-! ## The stencil list -/

section Stencils

variable {stencils : List CopiedStencil} {s₀ : CopiedStencil} {k stop : Nat}

/-- The `k`-th stencil after one more was copied: an old one, or the new one. -/
theorem getElem?_snoc {s : CopiedStencil} (h : (stencils ++ [s₀])[k]? = some s) :
    (k < stencils.length ∧ stencils[k]? = some s) ∨ (k = stencils.length ∧ s = s₀) := by
  rcases Nat.lt_trichotomy k stencils.length with hlt | heq | hgt
  · rw [List.getElem?_append_left hlt] at h
    exact Or.inl ⟨hlt, h⟩
  · rw [List.getElem?_append_right (by omega), heq, Nat.sub_self] at h
    exact Or.inr ⟨heq, (Option.some.inj h).symm⟩
  · rw [List.getElem?_eq_none (by simp only [List.length_append, List.length_singleton]; omega)] at h
    cases h

theorem kept_snoc (hk : k < stencils.length) :
    Kept (stencils ++ [s₀]) k stop ↔ Kept stencils k stop ∧ stop ≤ s₀.start := by
  rw [Kept]
  rw [List.drop_append_of_le_length (by omega)]
  constructor
  · intro h
    exact ⟨fun s hs => h s (List.mem_append_left _ hs),
      h s₀ (List.mem_append_right _ (List.mem_singleton.2 rfl))⟩
  · rintro ⟨hold, hnew⟩ s hs
    rcases List.mem_append.1 hs with hs | hs
    · exact hold s hs
    · rw [List.mem_singleton.1 hs]
      exact hnew

theorem kept_last (hk : stencils.length ≤ k + 1) : Kept stencils k stop := by
  intro s hs
  rw [List.drop_eq_nil_of_le hk] at hs
  cases hs

theorem Kept.mono {stop' : Nat} (h : Kept stencils k stop) (hle : stop' ≤ stop) :
    Kept stencils k stop' :=
  fun s hs => Nat.le_trans hle (h s hs)

/-- A kept position lies before every later stencil. -/
theorem Kept.le_start {m : Nat} {s : CopiedStencil} (h : Kept stencils k stop) (hkm : k < m)
    (hm : stencils[m]? = some s) : stop ≤ s.start := by
  apply h s
  rw [List.mem_iff_getElem?]
  refine ⟨m - (k + 1), ?_⟩
  rw [List.getElem?_drop, show k + 1 + (m - (k + 1)) = m by omega, hm]

end Stencils

/-! ## One call -/

section Call

variable {MAX_REGS : Nat} {checks : Bool} {l l' : Linked MAX_REGS} {c : Call MAX_REGS}

/-- What a successful call does to the bytes and the entries of a block, when it copies `s₀`. -/
structure Copying (b b' : PatchBlock MAX_REGS) (s₀ : CopiedStencil) : Prop where
  start_le : s₀.start ≤ b.code.length
  length : b'.code.length = s₀.stop
  old : ∀ x < s₀.start, (∀ d ∈ b.nextRelocations, ¬ InField d x) → b'.code[x]? = b.code[x]?
  resolved : ∀ d ∈ b.nextRelocations, d.fieldEnd ≤ s₀.start →
    readBytes b'.code d.location d.relocation.fieldLen = (jumpWrite s₀.start d).bytes
  plain : ∀ i v, s₀.code[i]? = some v →
    (∀ r ∈ s₀.entries, ¬ (r.offset.toNat ≤ i ∧ i < r.offset.toNat + r.fieldLen)) →
      b'.code[s₀.start + i]? = some v
  relocations : ∃ new, b'.relocations = b.relocations ++ new ∧
    ∀ d ∈ new, d.offset = s₀.start ∧ d.relocation ∈ s₀.entries ∧ d.target ≠ .next ∧
      ∀ i, d.relocation.patchInfo = some (.target i) →
        ∃ t, d.target = .block t ∧ s₀.jumps[i.toNat]? = some (.target t)
  pending : ∀ d ∈ b'.nextRelocations, d.offset = s₀.start ∧ d.relocation ∈ s₀.entries ∧
    d.target = .next ∧
      ∃ i, d.relocation.patchInfo = some (.target i) ∧ s₀.jumps[i.toNat]? = some .next
  apart : b'.nextRelocations.Pairwise FieldsApart
  jumps : ∀ r ∈ s₀.entries, ∀ i, r.patchInfo = some (.target i) →
    ∃ j, s₀.jumps[i.toNat]? = some j ∧
      ⟨s₀.start, r, PatchBlock.jumpTarget j⟩ ∈ b'.relocations ++ b'.nextRelocations

/-- Why an entry was filed, read at a jump field. -/
theorem target_of_filedFor {library : StencilLibrary MAX_REGS} {constants holes : List Usize}
    {jumps : List JumpTarget} {d : DelayedRelocation}
    (h : PatchBlock.FiledFor library constants holes jumps d) :
    (d.target ≠ .next → ∀ i, d.relocation.patchInfo = some (.target i) →
      ∃ t, d.target = .block t ∧ jumps[i.toNat]? = some (.target t)) ∧
    (d.target = .next →
      ∃ i, d.relocation.patchInfo = some (.target i) ∧ jumps[i.toNat]? = some .next) := by
  cases h with
  | @block offset r t i hi hj =>
      refine ⟨fun _ i' hi' => ?_, fun ht => by cases ht⟩
      obtain rfl : i = i' := by simpa [hi] using hi'
      exact ⟨t, rfl, hj⟩
  | next hi hj => exact ⟨fun hne => absurd rfl hne, fun _ => ⟨_, hi, hj⟩⟩
  | runtime hs hlt => exact ⟨fun _ i hi => by simp [hs] at hi, fun ht => by cases ht⟩
  | constant hi' hv hc => exact ⟨fun _ i hi => by simp [hi'] at hi, fun ht => by cases ht⟩

theorem copying_of_copies {b b' settled : PatchBlock MAX_REGS} {wide : Bool} {code : List U8}
    {relocs : List Relocation} (hcopy : b.Copies checks b' c wide settled code relocs)
    (hplaced : WellPlaced code (validEntries relocs))
    (hapart : b.nextRelocations.Pairwise FieldsApart)
    (hcut : settled.code.length < b.code.length →
      ∀ last ∈ b.nextRelocations.getLast?, settled.code.length < last.fieldEnd) :
    Copying b b'
      ⟨settled.code.length, code, validEntries relocs, c.emission.jumps.toList⟩ := by
  obtain ⟨-, -, hrel, -, hnil⟩ := PatchBlock.settleNext_cases hcopy.settle
  have heff := hcopy.effect
  constructor
  · exact hcopy.settles.length_le
  · exact hcopy.code_length
  · intro x hx hfree
    rw [hcopy.keeps_byte hx]
    exact hcopy.settles.keeps_byte hx hfree
  · intro d hd hin
    rw [← hcopy.settles.resolves hapart hcut hd hin]
    apply readBytes_congr
    intro x hx
    apply hcopy.keeps_byte
    rw [DelayedRelocation.fieldEnd] at hin
    simp only at hin
    omega
  · intro i v hi hfree
    exact hcopy.plain_byte hi hfree
  · obtain ⟨new, hnew, hsub, hfiled⟩ := heff.relocations
    refine ⟨new, hnew.trans (congrArg (· ++ new) hrel), fun d hd => ?_⟩
    obtain ⟨hoff, hne, hfor⟩ := hfiled d hd
    exact ⟨hoff, hsub.subset (List.mem_map_of_mem hd), hne, (target_of_filedFor hfor).1 hne⟩
  · obtain ⟨new, hnew, hsub, hfiled⟩ := heff.pending
    intro d hd
    rw [hnew, show _ = [] from hnil, List.nil_append] at hd
    obtain ⟨hoff, ht, hfor⟩ := hfiled d hd
    exact ⟨hoff, hsub.subset (List.mem_map_of_mem hd), ht, (target_of_filedFor hfor).2 ht⟩
  · obtain ⟨new, hnew, hsub, hfiled⟩ := heff.pending
    rw [hnew, show _ = [] from hnil, List.nil_append]
    -- the new entries are apart because the fields of the stencil are
    have hfields := List.pairwise_map.1 (hplaced.2.2.sublist hsub)
    apply hfields.imp_of_mem
    intro d d' hd hd' h
    have hoff := (hfiled d hd).1
    have hoff' := (hfiled d' hd').1
    simp only [FieldsApart, DelayedRelocation.fieldEnd, DelayedRelocation.location, hoff, hoff']
    rw [EntriesApart] at h
    omega
  · exact heff.jumps

end Call

/-! ## The invariant -/

section Invariant

variable {MAX_REGS : Nat}

/-- `d` is an entry of the `k`-th stencil `s`. -/
structure EntryOf (stencils : List CopiedStencil) (k : Nat) (s : CopiedStencil)
    (d : DelayedRelocation) : Prop where
  stencil : stencils[k]? = some s
  offset : d.offset = s.start
  relocation : d.relocation ∈ s.entries

/-- What has become of a jump field: a jump to a block is a delayed entry, a jump to the following
stencil is pending until that stencil is copied, and then holds its start. -/
def JumpLinked (l : Linked MAX_REGS) (k : Nat) (s : CopiedStencil) (r : Relocation) :
    JumpTarget → Prop
  | .target t => ⟨s.start, r, .block t⟩ ∈ l.block.relocations
  | .next =>
      (k + 1 = l.stencils.length ∧ ⟨s.start, r, .next⟩ ∈ l.block.nextRelocations) ∨
        ∃ s', l.stencils[k + 1]? = some s' ∧ (Kept l.stencils k (s.fieldStop r) →
          readBytes l.block.code (s.start + r.offset.toNat) r.fieldLen =
            (jumpWrite s'.start ⟨s.start, r, .next⟩).bytes)

/-- **The invariant of the clean runs.** -/
structure LinkState (l : Linked MAX_REGS) : Prop where
  placed : ∀ s ∈ l.stencils, WellPlaced s.code s.entries
  length : l.block.code.length = (l.stencils.getLast?.map CopiedStencil.stop).getD 0
  plain : ∀ k s i v, l.stencils[k]? = some s → s.code[i]? = some v →
    (∀ r ∈ s.entries, ¬ (r.offset.toNat ≤ i ∧ i < r.offset.toNat + r.fieldLen)) →
      Kept l.stencils k (s.start + i + 1) → l.block.code[s.start + i]? = some v
  delayed : ∀ d ∈ l.block.relocations, d.target ≠ .next ∧ ∃ k s, EntryOf l.stencils k s d ∧
    Kept l.stencils k d.fieldEnd ∧ ∀ i, d.relocation.patchInfo = some (.target i) →
      ∃ t, d.target = .block t ∧ s.jumps[i.toNat]? = some (.target t)
  pending : ∀ d ∈ l.block.nextRelocations, d.target = .next ∧ ∃ k s, EntryOf l.stencils k s d ∧
    k + 1 = l.stencils.length ∧
      ∃ i, d.relocation.patchInfo = some (.target i) ∧ s.jumps[i.toNat]? = some .next
  apart : l.block.nextRelocations.Pairwise FieldsApart
  target : ∀ k s r i, l.stencils[k]? = some s → r ∈ s.entries →
    r.patchInfo = some (.target i) → ∃ j, s.jumps[i.toNat]? = some j ∧ JumpLinked l k s r j

theorem EntryOf.location {stencils : List CopiedStencil} {k : Nat} {s : CopiedStencil}
    {d : DelayedRelocation} (h : EntryOf stencils k s d) :
    d.location = s.start + d.relocation.offset.toNat ∧ d.fieldEnd = s.fieldStop d.relocation := by
  rw [DelayedRelocation.fieldEnd, DelayedRelocation.location, h.offset, CopiedStencil.fieldStop]
  exact ⟨rfl, rfl⟩

/-- The fields of a stencil lie inside it. -/
theorem WellPlaced.fieldStop_le {s : CopiedStencil} {r : Relocation}
    (h : WellPlaced s.code s.entries) (hr : r ∈ s.entries) : s.fieldStop r ≤ s.stop := by
  have := h.1 r hr
  simp only [CopiedStencil.fieldStop, CopiedStencil.stop]
  omega

namespace LinkState

variable {l : Linked MAX_REGS}

/-- The last stencil ends with the code. -/
theorem last_stop (h : LinkState l) {k : Nat} {s : CopiedStencil} (hs : l.stencils[k]? = some s)
    (hk : k + 1 = l.stencils.length) : l.block.code.length = s.stop := by
  rw [h.length, List.getLast?_eq_getElem?, ← hk, Nat.add_sub_cancel, hs]
  rfl

/-- What was kept of a stencil lies in the code. -/
theorem kept_le (h : LinkState l) {k stop : Nat} {s : CopiedStencil}
    (hs : l.stencils[k]? = some s) (hkept : Kept l.stencils k stop) (hstop : stop ≤ s.stop) :
    stop ≤ l.block.code.length := by
  have hlt := (List.getElem?_eq_some_iff.1 hs).1
  rcases Nat.eq_or_lt_of_le (show k + 1 ≤ l.stencils.length by omega) with heq | hgt
  · rw [h.last_stop hs heq]
    exact hstop
  · obtain ⟨last, hlast⟩ : ∃ s', l.stencils[l.stencils.length - 1]? = some s' :=
      ⟨_, List.getElem?_eq_getElem (by omega)⟩
    have hstart := hkept.le_start (by omega) hlast
    rw [h.last_stop hlast (by omega)]
    exact Nat.le_trans hstart (Nat.le_add_right _ _)

/-- A kept position of a stencil lies in no pending field, except for the stencil's own. -/
theorem pending_free (h : LinkState l) {k x : Nat} {s : CopiedStencil}
    (hs : l.stencils[k]? = some s) (hkept : Kept l.stencils k (x + 1))
    (hown : k + 1 = l.stencils.length →
      ∀ r ∈ s.entries, ¬ (s.start + r.offset.toNat ≤ x ∧ x < s.fieldStop r)) :
    ∀ d ∈ l.block.nextRelocations, ¬ InField d x := by
  rintro d hd ⟨h1, h2⟩
  obtain ⟨-, m, s', hentry, hm, -⟩ := h.pending d hd
  obtain ⟨hloc, hend⟩ := hentry.location
  have hlt := (List.getElem?_eq_some_iff.1 hs).1
  rcases Nat.eq_or_lt_of_le (show k + 1 ≤ l.stencils.length by omega) with heq | hgt
  · -- the field is one of the stencil's own
    obtain rfl : m = k := by omega
    obtain rfl : s = s' := Option.some.inj (hs.symm.trans hentry.stencil)
    rw [hloc] at h1
    rw [hend] at h2
    exact hown heq _ hentry.relocation ⟨h1, h2⟩
  · have hstart := hkept.le_start (show k < m by omega) hentry.stencil
    omega

theorem start {library : StencilLibrary MAX_REGS} :
    LinkState (⟨.new library, []⟩ : Linked MAX_REGS) := by
  constructor
  · intro s hs
    cases hs
  · rfl
  · intro k s i v hs
    simp at hs
  · intro d hd
    cases hd
  · intro d hd
    cases hd
  · exact List.Pairwise.nil
  · intro k s r i hs
    simp at hs

/-! ### One clean call -/

section Step

variable {b' : PatchBlock MAX_REGS} {s₀ : CopiedStencil}

theorem length_step (hc : Copying l.block b' s₀) :
    b'.code.length = ((l.stencils ++ [s₀]).getLast?.map CopiedStencil.stop).getD 0 := by
  rw [List.getLast?_append_of_ne_nil _ (by simp), List.getLast?_singleton]
  exact hc.length

/-- A clean cut spares every delayed field. -/
theorem delayed_survives (h : LinkState l) (hc : Copying l.block b' s₀)
    (hcut : CleanCut l s₀.start) {d : DelayedRelocation} (hd : d ∈ l.block.relocations) :
    d.fieldEnd ≤ s₀.start := by
  obtain ⟨-, k, s, hentry, hkept, hfor⟩ := h.delayed d hd
  have hlt := (List.getElem?_eq_some_iff.1 hentry.stencil).1
  have hplaced := h.placed s (List.mem_of_getElem? hentry.stencil)
  rw [hentry.location.2] at hkept ⊢
  rcases Nat.eq_or_lt_of_le hc.start_le with heq | hshort
  · -- nothing was cut
    rw [heq]
    exact h.kept_le hentry.stencil hkept (hplaced.fieldStop_le hentry.relocation)
  · obtain ⟨last, hlast, -, -, hothers⟩ := hcut hshort
    apply hothers k hlt s hentry.stencil _ hentry.relocation _ hkept
    -- the popped jump goes to the following stencil, a delayed one does not
    rintro hk hsame
    obtain ⟨-, m, s', hentry', hm, i, hi, hj⟩ := h.pending last (List.mem_of_getLast? hlast)
    obtain rfl : m = k := by omega
    obtain rfl : s = s' := Option.some.inj (hentry.stencil.symm.trans hentry'.stencil)
    obtain ⟨t, -, ht⟩ := hfor i (hsame ▸ hi)
    rw [hj] at ht
    cases ht

theorem delayed_step (h : LinkState l) (hc : Copying l.block b' s₀) (hcut : CleanCut l s₀.start) :
    ∀ d ∈ b'.relocations, d.target ≠ .next ∧ ∃ k s, EntryOf (l.stencils ++ [s₀]) k s d ∧
      Kept (l.stencils ++ [s₀]) k d.fieldEnd ∧
        ∀ i, d.relocation.patchInfo = some (.target i) →
          ∃ t, d.target = .block t ∧ s.jumps[i.toNat]? = some (.target t) := by
  obtain ⟨new, hnew, hfiled⟩ := hc.relocations
  intro d hd
  rw [hnew] at hd
  rcases List.mem_append.1 hd with hd | hd
  · obtain ⟨hne, k, s, hentry, hkept, hfor⟩ := h.delayed d hd
    have hlt := (List.getElem?_eq_some_iff.1 hentry.stencil).1
    refine ⟨hne, k, s, ⟨?_, hentry.offset, hentry.relocation⟩, ?_, hfor⟩
    · rw [List.getElem?_append_left hlt]
      exact hentry.stencil
    · exact (kept_snoc hlt).2 ⟨hkept, h.delayed_survives hc hcut hd⟩
  · obtain ⟨hoff, hmem, hne, hfor⟩ := hfiled d hd
    refine ⟨hne, l.stencils.length, s₀, ⟨?_, hoff, hmem⟩, kept_last (by simp), hfor⟩
    rw [List.getElem?_append_right (Nat.le_refl _), Nat.sub_self]
    rfl

theorem pending_step (hc : Copying l.block b' s₀) :
    ∀ d ∈ b'.nextRelocations, d.target = .next ∧ ∃ k s, EntryOf (l.stencils ++ [s₀]) k s d ∧
      k + 1 = (l.stencils ++ [s₀]).length ∧
        ∃ i, d.relocation.patchInfo = some (.target i) ∧ s.jumps[i.toNat]? = some .next := by
  intro d hd
  obtain ⟨hoff, hmem, ht, hfor⟩ := hc.pending d hd
  refine ⟨ht, l.stencils.length, s₀, ⟨?_, hoff, hmem⟩, by simp, hfor⟩
  rw [List.getElem?_append_right (Nat.le_refl _), Nat.sub_self]
  rfl

theorem plain_step (h : LinkState l) (hc : Copying l.block b' s₀) {k : Nat} {s : CopiedStencil}
    {i : Nat} {v : U8} (hs : (l.stencils ++ [s₀])[k]? = some s) (hi : s.code[i]? = some v)
    (hfree : ∀ r ∈ s.entries, ¬ (r.offset.toNat ≤ i ∧ i < r.offset.toNat + r.fieldLen))
    (hkept : Kept (l.stencils ++ [s₀]) k (s.start + i + 1)) :
    b'.code[s.start + i]? = some v := by
  rcases getElem?_snoc hs with ⟨hlt, hold⟩ | ⟨rfl, rfl⟩
  · obtain ⟨hkept', hcutoff⟩ := (kept_snoc hlt).1 hkept
    rw [hc.old _ hcutoff]
    · exact h.plain k s i v hold hi hfree hkept'
    · apply h.pending_free hold hkept'
      rintro - r hr ⟨h1, h2⟩
      simp only [CopiedStencil.fieldStop] at h2
      exact hfree r hr ⟨by omega, by omega⟩
  · exact hc.plain i v hi hfree

/-- The bytes of a jump field that was resolved before stay as they are. -/
theorem resolved_keeps (h : LinkState l) (hc : Copying l.block b' s₀) {k : Nat} {s : CopiedStencil}
    {r : Relocation} (hs : l.stencils[k]? = some s) (hk : k + 1 ≠ l.stencils.length)
    (hkept : Kept l.stencils k (s.fieldStop r)) (hcutoff : s.fieldStop r ≤ s₀.start) :
    readBytes b'.code (s.start + r.offset.toNat) r.fieldLen =
      readBytes l.block.code (s.start + r.offset.toNat) r.fieldLen := by
  apply readBytes_congr
  intro x hlt
  have hx : s.start + r.offset.toNat + x + 1 ≤ s.fieldStop r := by
    simp only [CopiedStencil.fieldStop]
    omega
  apply hc.old _ (by omega)
  apply h.pending_free hs (hkept.mono hx)
  exact fun heq => absurd heq hk

theorem target_step (h : LinkState l) (hc : Copying l.block b' s₀) {k : Nat} {s : CopiedStencil}
    {r : Relocation} {i : U16} (hs : (l.stencils ++ [s₀])[k]? = some s) (hr : r ∈ s.entries)
    (hi : r.patchInfo = some (.target i)) :
    ∃ j, s.jumps[i.toNat]? = some j ∧ JumpLinked ⟨b', l.stencils ++ [s₀]⟩ k s r j := by
  obtain ⟨new, hnew, hfiled⟩ := hc.relocations
  -- a stencil copied before, or the one this call copies
  rcases getElem?_snoc hs with ⟨hlt, hold⟩ | ⟨rfl, rfl⟩
  · obtain ⟨j, hj, hlinked⟩ := h.target k s r i hold hr hi
    refine ⟨j, hj, ?_⟩
    cases j with
    | target t =>
        simp only [JumpLinked] at hlinked ⊢
        rw [hnew]
        exact List.mem_append_left _ hlinked
    | next =>
        refine Or.inr ?_
        rcases hlinked with ⟨hk, hmem⟩ | ⟨s', hs', hread⟩
        · -- the following stencil is the one just copied
          refine ⟨s₀, ?_, fun hkept => ?_⟩
          · rw [List.getElem?_append_right (by omega), hk, Nat.sub_self]
            rfl
          · have hin : (DelayedRelocation.mk s.start r .next).fieldEnd ≤ s₀.start :=
              ((kept_snoc hlt).1 hkept).2
            have hread := hc.resolved ⟨s.start, r, .next⟩ hmem hin
            exact hread
        -- settled earlier: this call must not touch the field again
        · have hlt' := (List.getElem?_eq_some_iff.1 hs').1
          refine ⟨s', ?_, fun hkept => ?_⟩
          · rw [List.getElem?_append_left hlt']
            exact hs'
          · obtain ⟨hkept', hcutoff⟩ := (kept_snoc hlt).1 hkept
            rw [← hread hkept']
            exact h.resolved_keeps hc hold (by omega) hkept' hcutoff
  · obtain ⟨j, hj, hmem⟩ := hc.jumps r hr i hi
    refine ⟨j, hj, ?_⟩
    cases j with
    | target t =>
        rcases List.mem_append.1 hmem with hmem | hmem
        · exact hmem
        · have ht := (hc.pending _ hmem).2.2.1
          cases ht
    | next =>
        rcases List.mem_append.1 hmem with hmem | hmem
        -- no delayed relocation waits for the next stencil
        · exfalso
          rw [hnew] at hmem
          rcases List.mem_append.1 hmem with hmem | hmem
          · exact (h.delayed _ hmem).1 rfl
          · exact (hfiled _ hmem).2.2.1 rfl
        · exact Or.inl ⟨by simp, hmem⟩

/-- **A clean call keeps the invariant.** -/
theorem step (h : LinkState l) (hplaced : WellPlaced s₀.code s₀.entries)
    (hcut : CleanCut l s₀.start) (hc : Copying l.block b' s₀) :
    LinkState ⟨b', l.stencils ++ [s₀]⟩ := by
  constructor
  · intro s hs
    rcases List.mem_append.1 hs with hs | hs
    · exact h.placed s hs
    · rw [List.mem_singleton.1 hs]
      exact hplaced
  · exact length_step hc
  · intro k s i v hs hi hfree hkept
    exact h.plain_step hc hs hi hfree hkept
  · exact h.delayed_step hc hcut
  · exact pending_step hc
  · exact hc.apart
  · intro k s r i hs hr hi
    exact h.target_step hc hs hr hi

end Step

theorem next {checks : Bool} {c : Call MAX_REGS} {l' : Linked MAX_REGS} (h : LinkState l)
    (hg : CleanCall checks l c) (hn : l.next checks c = some l') : LinkState l' := by
  obtain ⟨wide, settled, code, relocs, -, hcopy, hcopied, hstencils⟩ := Linked.copies_of_next hn
  obtain ⟨hplaced, hcut⟩ : WellPlaced code (validEntries relocs) ∧
      CleanCut l settled.code.length := hg _ hcopied
  have hstep := h.step hplaced hcut (copying_of_copies hcopy hplaced h.apart ?_)
  · rw [← hstencils] at hstep
    exact hstep
  -- the popped jump is cut off together with its field
  · intro hshort last hlast
    obtain ⟨last', hlast', hend, -, -⟩ := hcut hshort
    obtain rfl : last' = last := Option.some.inj (hlast'.symm.trans hlast)
    omega

end LinkState

/-- **The invariant holds in every clean run.** -/
theorem linkState_of_reachable {checks : Bool} {library : StencilLibrary MAX_REGS}
    {l : Linked MAX_REGS} (h : ((linkedSystem checks library).guard (CleanCall checks)).Reachable l) :
    LinkState l := by
  refine System.Reachable.invariant ?_ ?_ h
  · rintro _ rfl
    exact LinkState.start
  · rintro l c l' - hi ⟨hg, hn⟩
    exact hi.next hg hn

/-! ## The finalized map -/

/-- The address of a jump of the `k`-th stencil. -/
def jumpAddress (base : Usize) (off : Nat) (blocks : ProgramBlocks)
    (stencils : List CopiedStencil) (k : Nat) : JumpTarget → Option Nat
  | .target t => (blocks.resolveTarget t).map fun o => base.toNat + o
  | .next => (stencils[k + 1]?).map fun s => base.toNat + off + s.start

/-- **The linking law** for the bytes of a block at `off`. A relative jump field that was not pruned
holds the low bits of address + addend - place, and every other byte that was not pruned is the
stencil's. -/
structure LinkingLaw (base : Usize) (off : Nat) (blocks : ProgramBlocks)
    (stencils : List CopiedStencil) (bytes : List U8) : Prop where
  jumps : ∀ k s r i, stencils[k]? = some s → r ∈ s.entries → r.relative = true →
    r.patchInfo = some (.target i) → Kept stencils k (s.fieldStop r) →
      ∃ j S, s.jumps[i.toNat]? = some j ∧ jumpAddress base off blocks stencils k j = some S ∧
        (ofLeBytes (readBytes bytes (off + (s.start + r.offset.toNat)) r.fieldLen) : Int) =
          (S + r.addend.toInt - (base.toNat + off + (s.start + r.offset.toNat) : Nat)) %
            2 ^ r.size.toNat
  plain : ∀ k s i v, stencils[k]? = some s → s.code[i]? = some v →
    (∀ r ∈ s.entries, ¬ (r.offset.toNat ≤ i ∧ i < r.offset.toNat + r.fieldLen)) →
      Kept stencils k (s.start + i + 1) → bytes[off + (s.start + i)]? = some v

namespace LinkState

variable {l : Linked MAX_REGS}

/-- A delayed field over a kept position of a stencil is a field of that stencil. -/
theorem own_of_inField (h : LinkState l) {k x : Nat} {s : CopiedStencil}
    (hs : l.stencils[k]? = some s) (hkept : Kept l.stencils k (x + 1)) (hlow : s.start ≤ x)
    (hhigh : x < s.stop) {d : DelayedRelocation} (hd : d ∈ l.block.delayedEntries)
    (hin : InField d x) : EntryOf l.stencils k s d ∧
      ∀ i, d.relocation.patchInfo = some (.target i) →
        ∃ t, d.target = .block t ∧ s.jumps[i.toNat]? = some (.target t) := by
  obtain ⟨h1, h2⟩ := hin
  rcases List.mem_append.1 hd with hd | hd
  · obtain ⟨-, m, s', hentry, hkept', hfor⟩ := h.delayed d hd
    have hloc := hentry.location.1
    rcases Nat.lt_trichotomy m k with hlt | rfl | hgt
    · have := hkept'.le_start hlt hs
      omega
    · obtain rfl : s = s' := Option.some.inj (hs.symm.trans hentry.stencil)
      exact ⟨hentry, hfor⟩
    · have := hkept.le_start hgt hentry.stencil
      omega
  · -- the trampolines lie behind the code
    have hstart := trampolineEntries_start hd
    have hle := h.kept_le hs hkept (by omega)
    omega

/-- A delayed field over a kept position of a jump field is that field, filed for the same jump. -/
theorem jump_of_inField (h : LinkState l) {k x : Nat} {s : CopiedStencil} {r : Relocation}
    {i : U16} (hs : l.stencils[k]? = some s) (hr : r ∈ s.entries)
    (hi : r.patchInfo = some (.target i)) (hkept : Kept l.stencils k (s.fieldStop r))
    (hlow : s.start + r.offset.toNat ≤ x) (hhigh : x < s.fieldStop r) {d : DelayedRelocation}
    (hd : d ∈ l.block.delayedEntries) (hin : InField d x) :
    ∃ t, d = ⟨s.start, r, .block t⟩ ∧ s.jumps[i.toNat]? = some (.target t) := by
  have hplaced := h.placed s (List.mem_of_getElem? hs)
  have hstop := hplaced.fieldStop_le hr
  obtain ⟨hentry, hfor⟩ := h.own_of_inField hs (hkept.mono (show x + 1 ≤ _ by omega)) (by omega)
    (by omega) hd hin
  have hsame : d.relocation = r := by
    by_contra hne
    obtain ⟨hloc, hend⟩ := hentry.location
    obtain ⟨h1, h2⟩ := hin
    rw [hloc] at h1
    rw [hend] at h2
    simp only [CopiedStencil.fieldStop] at h2 hhigh
    rcases hplaced.2.2.forall hentry.relocation hr hne with hapart | hapart <;> omega
  obtain ⟨t, ht, hj⟩ := hfor i (hsame ▸ hi)
  refine ⟨t, ?_, hj⟩
  rw [← hentry.offset, ← hsame, ← ht]

/-- A field for a jump to a block holds the address of that block. -/
theorem target_bytes (hi : LinkState l) {checks : Bool} {base : Usize} {off : Nat}
    {blocks : ProgramBlocks} {map map' : LoggedBuffer}
    (h : l.block.finalizeInto checks base off map blocks = some (.ok (), map')) {k : Nat}
    {s : CopiedStencil} {r : Relocation} {i t : U16} (hs : l.stencils[k]? = some s)
    (hr : r ∈ s.entries) (htarget : r.patchInfo = some (.target i))
    (hkept : Kept l.stencils k (s.fieldStop r)) (hj : s.jumps[i.toNat]? = some (.target t)) :
    (∃ o, blocks.resolveTarget t = some o) ∧
      readBytes map'.bytes (off + (s.start + r.offset.toNat)) r.fieldLen =
        l.block.exactBytes base off blocks ⟨s.start, r, .block t⟩ := by
  obtain ⟨j, hj', hlinked⟩ := hi.target k s r i hs hr htarget
  obtain rfl := Option.some.inj (hj.symm.trans hj')
  -- a delayed entry: written last, and the only one over its field
  have hd : ⟨s.start, r, .block t⟩ ∈ l.block.delayedEntries := List.mem_append_left _ hlinked
  have hread := PatchBlock.readBytes_of_agree h hd (by
    intro d' hd' x h1 h2 h3 h4
    obtain ⟨t', rfl, hj''⟩ := hi.jump_of_inField hs hr htarget hkept h1 h2 hd' ⟨h3, h4⟩
    rw [hj] at hj''
    cases hj''
    rfl)
  obtain ⟨-, -, -, -, hall⟩ := PatchBlock.finalizeInto_ok h
  obtain ⟨S, hS⟩ := Option.isSome_iff_exists.1 (hall _ hd).1
  obtain ⟨o, ho, -⟩ := Option.map_eq_some_iff.1 hS
  exact ⟨⟨o, ho⟩, hread⟩

/-- A field for a jump to the following stencil holds that stencil's start. -/
theorem next_bytes (hi : LinkState l) {checks : Bool} {base : Usize} {off : Nat}
    {blocks : ProgramBlocks} {map map' : LoggedBuffer}
    (h : l.block.finalizeInto checks base off map blocks = some (.ok (), map')) {k : Nat}
    {s : CopiedStencil} {r : Relocation} {i : U16} (hs : l.stencils[k]? = some s)
    (hr : r ∈ s.entries) (htarget : r.patchInfo = some (.target i))
    (hkept : Kept l.stencils k (s.fieldStop r)) (hj : s.jumps[i.toNat]? = some .next) :
    ∃ s', l.stencils[k + 1]? = some s' ∧
      readBytes map'.bytes (off + (s.start + r.offset.toNat)) r.fieldLen =
        (jumpWrite s'.start ⟨s.start, r, .next⟩).bytes := by
  obtain ⟨-, hnext, -, -, -⟩ := PatchBlock.finalizeInto_ok h
  obtain ⟨j, hj', hlinked⟩ := hi.target k s r i hs hr htarget
  obtain rfl := Option.some.inj (hj.symm.trans hj')
  rcases hlinked with ⟨-, hmem⟩ | ⟨s', hs', hread⟩
  · rw [hnext] at hmem
    cases hmem
  · -- resolved when the following stencil was copied, and no delayed field lies over it
    refine ⟨s', hs', ?_⟩
    rw [← hread hkept]
    apply readBytes_congr
    intro x hx
    have hstop := (hi.placed s (List.mem_of_getElem? hs)).fieldStop_le hr
    have hin : s.start + r.offset.toNat + x < s.fieldStop r := by
      simp only [CopiedStencil.fieldStop]
      omega
    rw [Nat.add_assoc]
    apply PatchBlock.code_byte_of_finalizeInto h
    · exact Nat.lt_of_lt_of_le hin (hi.kept_le hs hkept hstop)
    · intro d hd hcov
      obtain ⟨t, -, ht⟩ := hi.jump_of_inField hs hr htarget hkept (Nat.le_add_right _ _) hin hd hcov
      rw [hj] at ht
      cases ht

end LinkState

/-- **The linking law** holds for every clean run, base and block layout for which `finalizeInto`
succeeds. -/
theorem linking_law {checks : Bool} {library : StencilLibrary MAX_REGS} {l : Linked MAX_REGS}
    {base : Usize} {off : Nat} {blocks : ProgramBlocks} {map map' : LoggedBuffer}
    (hl : ((linkedSystem checks library).guard (CleanCall checks)).Reachable l)
    (h : l.block.finalizeInto checks base off map blocks = some (.ok (), map')) :
    LinkingLaw base off blocks l.stencils map'.bytes := by
  have hi := linkState_of_reachable hl
  constructor
  · intro k s r i hs hr hrel htarget hkept
    have hplaced := hi.placed s (List.mem_of_getElem? hs)
    have hwidth := eight_mul_fieldLen (hplaced.2.1 r hr)
    have hle : r.fieldLen ≤ 8 := by
      have := hplaced.2.1 r hr
      simp only [List.mem_cons, List.not_mem_nil, or_false] at this
      omega
    obtain ⟨j, hj, -⟩ := hi.target k s r i hs hr htarget
    cases j with
    | target t =>
        obtain ⟨⟨o, ho⟩, hread⟩ := hi.target_bytes h hs hr htarget hkept hj
        refine ⟨.target t, base.toNat + o, hj, by simp only [jumpAddress, ho, Option.map_some], ?_⟩
        rw [hread, ← hwidth, PatchBlock.exactBytes, ofLeBytes_ofInt hle]
        simp only [PatchBlock.exactValue, PatchBlock.exactTarget, ho, Option.getD_some, hrel,
          if_true, PatchBlock.place, DelayedRelocation.location]
    | next =>
        obtain ⟨s', hs', hread⟩ := hi.next_bytes h hs hr htarget hkept hj
        refine ⟨.next, base.toNat + off + s'.start, hj,
          by simp only [jumpAddress, hs', Option.map_some], ?_⟩
        rw [hread, ← hwidth, PatchBlock.jumpWrite_bytes, ofLeBytes_ofInt hle]
        simp only [hrel, if_true, DelayedRelocation.location]
        congr 1
        push_cast
        ring
  -- a byte outside every field of its stencil is copied as it is
  · intro k s i v hs hv hfree hkept
    have hlt : i < s.code.length := (List.getElem?_eq_some_iff.1 hv).1
    have hstop : s.start + i < s.stop := by
      rw [CopiedStencil.stop]
      omega
    rw [PatchBlock.code_byte_of_finalizeInto h (hi.kept_le hs hkept hstop)]
    · exact hi.plain k s i v hs hv hfree hkept
    · rintro d hd hin
      obtain ⟨hentry, -⟩ := hi.own_of_inField hs hkept (Nat.le_add_right _ _) hstop hd hin
      obtain ⟨hloc, hend⟩ := hentry.location
      rw [hloc, hend, CopiedStencil.fieldStop] at hin
      exact hfree _ hentry.relocation ⟨by omega, by omega⟩

end Invariant

/-! ## A clean run with a cut -/

/-- A call and a jump to block 1. The call's own jump to the following stencil is cut off. -/
def callThenJump : List (Call 1) :=
  [.emit callFamily nil nil nil, .endBranch jumpFamily nil nil nil (.singleton (.target 1))]

section Computed

variable {MAX_REGS : Nat}

/-- The calls on a new block, stopping at one that does not meet `ok`. -/
def linkedRunOf (ok : Linked MAX_REGS → Call MAX_REGS → Bool) (library : StencilLibrary MAX_REGS)
    (calls : List (Call MAX_REGS)) : Option (Linked MAX_REGS) :=
  System.runGuarded (Linked.next true) ok calls ⟨.new library, []⟩

theorem reachable_of_linkedRunOf {ok : Linked MAX_REGS → Call MAX_REGS → Bool}
    {G : Linked MAX_REGS → Call MAX_REGS → Prop} (hok : ∀ l c, ok l c = true → G l c)
    {library : StencilLibrary MAX_REGS} {calls : List (Call MAX_REGS)} {l : Linked MAX_REGS}
    (h : linkedRunOf ok library calls = some l) :
    ((linkedSystem true library).guard G).Reachable l :=
  System.reachable_of_runGuarded (fun _ _ _ h => h) hok (.init rfl) h

def cleanRunOf (library : StencilLibrary MAX_REGS) (calls : List (Call MAX_REGS)) :
    Option (Linked MAX_REGS) :=
  linkedRunOf (fun l c => decide (CleanCall true l c)) library calls

end Computed

/-- The block at 8 in a program with block 1 at 40. -/
def linkCall : Option (Linked 1 × Option Unit × LoggedBuffer) :=
  (cleanRunOf sampleLibrary callThenJump).bind fun l =>
    (l.block.finalizeInto true 0x1000 8 ⟨List.replicate 41 0, []⟩ ⟨[8, 40]⟩).map fun p =>
      (l, p.1.toOption, p.2)

theorem linking_law_call : ∃ l map, linkCall = some (l, some (), map) ∧
    l.stencils.map (·.start) = [0, 5] ∧
      readBytes map.bytes 8 10 = [0xE8, 5, 0, 0, 0, 0xE9, 22, 0, 0, 0] ∧
        LinkingLaw 0x1000 8 ⟨[8, 40]⟩ l.stencils map.bytes := by
  have hrun : linkCall.map (fun p =>
      (p.2.1, p.1.stencils.map (·.start), readBytes p.2.2.bytes 8 10)) =
        some (some (), [0, 5], [0xE8, 5, 0, 0, 0, 0xE9, 22, 0, 0, 0]) := by
    decide +kernel
  obtain ⟨⟨l, res, map⟩, hlink, hstate⟩ := Option.map_eq_some_iff.1 hrun
  simp only [Prod.mk.injEq] at hstate
  obtain ⟨rfl, hstarts, hbytes⟩ := hstate
  refine ⟨l, map, hlink, hstarts, hbytes, ?_⟩
  obtain ⟨l', hl, hfin⟩ := Option.bind_eq_some_iff.1 hlink
  obtain ⟨⟨out, map'⟩, hout, hp⟩ := Option.map_eq_some_iff.1 hfin
  simp only [Prod.mk.injEq] at hp
  obtain ⟨rfl, hok, rfl⟩ := hp
  have hreach : ((linkedSystem true sampleLibrary).guard (CleanCall true)).Reachable l' :=
    reachable_of_linkedRunOf (fun _ _ h => of_decide_eq_true h) hl
  cases out with
  | error e => cases hok
  | ok u => exact linking_law hreach hout

end Patchouly.Patch
