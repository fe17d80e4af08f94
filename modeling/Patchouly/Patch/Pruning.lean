import Patchouly.Patch.Linking

/-!
# Pruning

`emit_one` cuts the empty stencil off the end of the code when the last pending jump lies behind the
last delayed entry. It compares bytes, so it cannot see which relocation the bytes belong to.

`LastCopied` ties the pending jumps of a block to the stencil that was copied last, in every run.
`EndProtected` says by the bytes and the fields of a stencil that its end is not mistaken for its last
jump, or is that jump. `cut_redundant`: in a run of such stencils a cut removes a redundant jump and
nothing else.
-/

set_option autoImplicit false

namespace Patchouly.Patch

open Patchouly.Lib Patchouly.Core

/-- A jump field that falls through to the following stencil. -/
def isNext (jumps : List JumpTarget) (r : Relocation) : Bool :=
  match r.patchInfo with
  | some (.target i) => jumps[i.toNat]? = some .next
  | _ => false

def isJump (r : Relocation) : Bool :=
  match r.patchInfo with
  | some (.target _) => true
  | _ => false

theorem isJump_iff {r : Relocation} : isJump r = true ↔ ∃ i, r.patchInfo = some (.target i) := by
  rw [isJump]
  split
  · next i hi => exact ⟨fun _ => ⟨i, hi⟩, fun _ => rfl⟩
  · next hne =>
    constructor
    · intro h
      cases h
    · rintro ⟨i, hi⟩
      exact absurd hi (hne i)

/-- An entry that waits for `finalize_into`: a wide hole, a jump to a block, or a runtime function whose
address the field does not take. -/
def isFiled (rtSymbols : List Usize) (wide : Bool) (jumps : List JumpTarget) (r : Relocation) : Bool :=
  match r.patchInfo with
  | some (.hole _) => wide
  | some (.stack _) => false
  | some (.target i) => jumps[i.toNat]? ≠ some .next
  | some (.runtime i) => !(rtSymbols[i.toNat]?).all r.supportsValue
  | none => false

/-- A jump is pending or filed. -/
theorem isFiled_of_isJump {rtSymbols : List Usize} {wide : Bool} {jumps : List JumpTarget}
    {r : Relocation} (hjump : isJump r = true) (hnext : isNext jumps r = false) :
    isFiled rtSymbols wide jumps r = true := by
  obtain ⟨i, hi⟩ := isJump_iff.1 hjump
  rw [isNext, hi] at hnext
  rw [isFiled, hi]
  exact decide_eq_true (of_decide_eq_false hnext)

/-! ## The end of a stencil -/

/-- A byte of the stencil's own, in no field, differs from the empty stencil where the two ends meet. -/
def OwnEnd (empty code : List U8) (entries : List Relocation) : Prop :=
  ∃ i < code.length, code.length ≤ i + empty.length ∧
    code[i]? ≠ empty[i + empty.length - code.length]? ∧
      ∀ r ∈ entries, ¬ (r.offset.toNat ≤ i ∧ i < r.offset.toNat + r.fieldLen)

/-- The stencil ends with a jump as long as the empty stencil, and no other field is in there. -/
def JumpEnd (empty code : List U8) (entries : List Relocation) : Prop :=
  ∃ t ∈ entries.getLast?, isJump t = true ∧ t.offset.toNat + t.fieldLen = code.length ∧
    empty.length ≤ code.length ∧ code.length ≤ t.offset.toNat + empty.length ∧
      ∀ r ∈ entries.dropLast, r.offset.toNat + r.fieldLen + empty.length ≤ code.length

instance (empty code : List U8) (entries : List Relocation) : Decidable (OwnEnd empty code entries) :=
  inferInstanceAs (Decidable (∃ i < code.length, _))

instance (empty code : List U8) (entries : List Relocation) : Decidable (JumpEnd empty code entries) :=
  inferInstanceAs (Decidable (∃ t ∈ entries.getLast?, _))

/-- **The end of a stencil is protected** from a wrong cut: it does not read like the empty stencil
whatever its fields hold, or it is a jump, or the last delayed field stands at or behind the last jump
to the following stencil. -/
def EndProtected {MAX_REGS : Nat} (library : StencilLibrary MAX_REGS) (wide : Bool)
    (jumps : List JumpTarget) (code : List U8) (entries : List Relocation) : Prop :=
  library.empty = [] ∨ OwnEnd library.empty code entries ∨ JumpEnd library.empty code entries ∨
    ∀ r ∈ (entries.filter (isNext jumps)).getLast?,
      ∃ t ∈ (entries.filter (isFiled library.rtSymbols wide jumps)).getLast?,
        r.offset.toNat ≤ t.offset.toNat

instance {MAX_REGS : Nat} (library : StencilLibrary MAX_REGS) (wide : Bool) (jumps : List JumpTarget)
    (code : List U8) (entries : List Relocation) :
    Decidable (EndProtected library wide jumps code entries) :=
  inferInstanceAs (Decidable (_ ∨ _ ∨ _ ∨ ∀ r ∈ (entries.filter (isNext jumps)).getLast?, _))

/-- A byte of the stencil's own is still there after a jump of the stencil was resolved. -/
theorem OwnEnd.not_suffix {empty code patched : List U8} {s : CopiedStencil} {d : DelayedRelocation}
    {n : Nat} (hown : OwnEnd empty s.code s.entries) (hstop : code.length = s.stop)
    (hplain : ∀ i v, s.code[i]? = some v →
      (∀ r ∈ s.entries, ¬ (r.offset.toNat ≤ i ∧ i < r.offset.toNat + r.fieldLen)) →
        code[s.start + i]? = some v)
    (hr : d.relocation ∈ s.entries) (hoffset : d.offset = s.start)
    (hp : applyWrites [jumpWrite n d] code = some patched) : ¬ empty <:+ patched := by
  rintro ⟨front, rfl⟩
  obtain ⟨i, hi, hle, hne, hfree⟩ := hown
  have hlen := applyWrites_length hp
  rw [CopiedStencil.stop] at hstop
  rw [List.length_append] at hlen
  have hbyte : (front ++ empty)[s.start + i]? = s.code[i]? := by
    have hnot : ¬ (jumpWrite n d).Covers (s.start + i) := by
      rw [jumpWrite, DelayedRelocation.fieldWrite_covers, DelayedRelocation.fieldEnd,
        DelayedRelocation.location, hoffset]
      rintro ⟨h1, h2⟩
      exact hfree _ hr ⟨by omega, by omega⟩
    rw [applyWrites_getElem? hp, lastByte_eq_none (by simpa using hnot), Option.none_or,
      hplain i _ (List.getElem?_eq_getElem hi) hfree, List.getElem?_eq_getElem hi]
  rw [List.getElem?_append_right (by omega)] at hbyte
  apply hne
  rw [← hbyte]
  congr 1
  omega

namespace CopiedStencil

variable (s : CopiedStencil)

/-- The jumps of a stencil to the one that follows it, as they are filed. -/
def pending : List DelayedRelocation :=
  (s.entries.filter (isNext s.jumps)).map fun r => ⟨s.start, r, .next⟩

/-- The last field of a stencil that falls through. -/
def lastNext : Option Relocation := (s.entries.filter (isNext s.jumps)).getLast?

/-- The stencil ends with the field of its last jump to the following one, and nothing of another field
lies in its last `n` bytes. -/
def EndsInNext (n : Nat) : Prop :=
  ∀ r ∈ s.lastNext, r.offset.toNat + r.fieldLen = s.code.length ∧ n ≤ s.code.length ∧
    ∀ r' ∈ s.entries.erase r, r'.fieldLen = 0 ∨ r'.offset.toNat + r'.fieldLen ≤ s.code.length - n ∨
      s.code.length ≤ r'.offset.toNat

end CopiedStencil

namespace PatchBlock

variable {MAX_REGS : Nat} {checks wide : Bool} {offset : Nat} {vars holes : List Usize}
  {jumps : List JumpTarget}

/-- One entry adds at most its own pending jump. -/
theorem Patches.pending_eq {b b' : PatchBlock MAX_REGS} {r : Relocation}
    (h : Patches b b' wide offset vars holes jumps r) : b'.nextRelocations =
      b.nextRelocations ++ ([r].filter (isNext jumps)).map fun r => ⟨offset, r, .next⟩ := by
  -- only an entry for a jump to `Next` is filed as pending
  have hnot : isNext jumps r = false → [r].filter (isNext jumps) = [] := by
    intro hr
    rw [List.filter_cons, hr]
    rfl
  cases h with
  | written value ht hv hw hb =>
      have hr : isNext jumps r = false := by
        rw [isNext]
        split
        · next i hi => exact absurd hi (ht i)
        · rfl
      rw [hnot hr, hb, List.map_nil, List.append_nil]
  | delayed t more hne ht hb =>
      have hr : isNext jumps r = false := by
        rw [isNext]
        cases ht with
        | block hi hj => simp [hi, hj]
        | next hi hj => exact absurd rfl hne
        | runtime hs hlt => rw [hs]
        | constant hi hv hc => rw [hi]
      rw [hnot hr, hb, List.map_nil, List.append_nil]
  | pending ht hb =>
      have hr : isNext jumps r = true := by
        rw [isNext]
        cases ht with
        | next hi hj => simp [hi, hj]
      rw [List.filter_cons, hr, hb]
      rfl

/-- The pending jumps of a copied stencil, in order. -/
theorem patchEntries_pending {relocs : List Relocation} {b b' : PatchBlock MAX_REGS}
    (h : patchEntries checks wide offset vars holes jumps relocs b = some b') :
    b'.nextRelocations = b.nextRelocations ++
      ((validEntries relocs).filter (isNext jumps)).map fun r => ⟨offset, r, .next⟩ := by
  refine patchEntries_appends (·.nextRelocations)
    (fun rs => (rs.filter (isNext jumps)).map fun r => ⟨offset, r, .next⟩) rfl ?_
    (fun _ _ _ _ hp => (patchEntry_cases hp).pending_eq) rfl h
  intro r rs
  rw [← List.map_append, ← List.filter_append, List.singleton_append]

/-- Where a delayed entry stands: the start of its stencil, and its relocation. -/
def filedAt (d : DelayedRelocation) : Nat × Relocation := (d.offset, d.relocation)

/-- One entry is filed or not. -/
theorem patchEntry_filed {library : StencilLibrary MAX_REGS} {b b' : PatchBlock MAX_REGS}
    {r : Relocation} (hlibrary : b.library = library)
    (h : patchEntry checks wide offset vars holes jumps b r = some b') :
    b'.relocations.map filedAt = b.relocations.map filedAt ++
      ([r].filter (isFiled library.rtSymbols wide jumps)).map fun r => (offset, r) := by
  have hfiled : isFiled library.rtSymbols wide jumps r = true →
      ([r].filter (isFiled library.rtSymbols wide jumps)).map (fun r => (offset, r)) =
        [(offset, r)] := by
    intro hr
    rw [List.filter_cons, hr]
    rfl
  have hnot : isFiled library.rtSymbols wide jumps r = false →
      ([r].filter (isFiled library.rtSymbols wide jumps)).map (fun r => (offset, r)) = [] := by
    intro hr
    rw [List.filter_cons, hr]
    rfl
  unfold patchEntry at h
  split at h
  · next i hinfo =>
    obtain ⟨value, -, h⟩ := Option.bind_eq_some_iff.1 h
    obtain rfl := Option.some.inj h
    rw [hfiled (by rw [isFiled, hinfo]), List.map_append]
    rfl
  · next narrow _ _ hwide =>
    obtain ⟨⟨code, delayed⟩, hout, rfl⟩ := Option.map_eq_some_iff.1 h
    rw [DelayedRelocation.tryApply] at hout
    obtain ⟨info, hinfo, hout⟩ := Option.bind_eq_some_iff.1 hout
    cases info with
    | hole i =>
        obtain ⟨value, -, hout⟩ := Option.bind_eq_some_iff.1 hout
        obtain ⟨d, -, hout⟩ := Option.bind_eq_some_iff.1 hout
        obtain ⟨rfl, rfl⟩ := Prod.mk.inj (Option.some.inj hout)
        have hnarrow : narrow = false := Bool.eq_false_iff.2 fun hw => hwide i hw hinfo
        rw [hnot (by rw [isFiled, hinfo, hnarrow]), List.append_nil]
        rfl
    | stack i =>
        obtain ⟨value, -, hout⟩ := Option.bind_eq_some_iff.1 hout
        obtain ⟨d, -, hout⟩ := Option.bind_eq_some_iff.1 hout
        obtain ⟨rfl, rfl⟩ := Prod.mk.inj (Option.some.inj hout)
        rw [hnot (by rw [isFiled, hinfo]), List.append_nil]
        rfl
    | target i =>
        obtain ⟨j, hj, hout⟩ := Option.bind_eq_some_iff.1 hout
        cases j with
        | next =>
            obtain ⟨rfl, rfl⟩ := Prod.mk.inj (Option.some.inj hout)
            rw [hnot (by simp [isFiled, hinfo, hj]), List.append_nil]
            rfl
        | target t =>
            obtain ⟨rfl, rfl⟩ := Prod.mk.inj (Option.some.inj hout)
            rw [hfiled (by simp [isFiled, hinfo, hj])]
            simp [fileDelayed, filedAt]
    | runtime i =>
        obtain ⟨value, hv, hout⟩ := Option.bind_eq_some_iff.1 hout
        rw [hlibrary] at hv
        split at hout
        · next hfits =>
          obtain ⟨rfl, rfl⟩ := Prod.mk.inj (Option.some.inj hout)
          rw [hfiled (by simpa [isFiled, hinfo, hv] using hfits)]
          simp [fileDelayed, filedAt]
        · next hfits =>
          obtain ⟨d, -, hout⟩ := Option.bind_eq_some_iff.1 hout
          obtain ⟨rfl, rfl⟩ := Prod.mk.inj (Option.some.inj hout)
          rw [hnot (by simpa [isFiled, hinfo, hv] using hfits), List.append_nil]
          rfl

/-- The entries that a copied stencil files, in order. -/
theorem patchEntries_filed {library : StencilLibrary MAX_REGS} {relocs : List Relocation}
    {b b' : PatchBlock MAX_REGS} (hlibrary : b.library = library)
    (h : patchEntries checks wide offset vars holes jumps relocs b = some b') :
    b'.relocations.map filedAt = b.relocations.map filedAt ++
      ((validEntries relocs).filter (isFiled library.rtSymbols wide jumps)).map fun r =>
        (offset, r) := by
  refine patchEntries_appends (·.relocations.map filedAt)
    (fun rs => (rs.filter (isFiled library.rtSymbols wide jumps)).map fun r => (offset, r)) rfl ?_
    (fun _ _ _ hl hp => patchEntry_filed hl hp) hlibrary h
  intro r rs
  rw [← List.map_append, ← List.filter_append, List.singleton_append]

end PatchBlock

/-! ## The stencil that was copied last -/

section Runs

variable {MAX_REGS : Nat}

/-- All sequences of calls. A call that fails copies nothing. -/
def callSystem (checks : Bool) (library : StencilLibrary MAX_REGS) :
    System (Linked MAX_REGS) (Call MAX_REGS) where
  init l := l = ⟨.new library, []⟩
  step l c l' := l.next checks c = some l' ∨
    ∃ e, l.block.call checks c = some (.error e, l'.block) ∧ l'.stencils = l.stencils

/-- A run of successful calls is one of them. -/
theorem callSystem_of_linked {checks : Bool} {library : StencilLibrary MAX_REGS} {l : Linked MAX_REGS}
    (h : (linkedSystem checks library).Reachable l) : (callSystem checks library).Reachable l := by
  induction h with
  | init h => exact .init h
  | step c hs hn ih => exact .step c ih (Or.inl hn)

/-- The code ends with the stencil that was copied last, and the pending jumps are its own. -/
structure LastCopied (library : StencilLibrary MAX_REGS) (l : Linked MAX_REGS) : Prop where
  library : l.block.library = library
  length : l.block.code.length = (l.stencils.getLast?.map CopiedStencil.stop).getD 0
  pending : l.block.nextRelocations = (l.stencils.getLast?.map CopiedStencil.pending).getD []

variable {checks : Bool} {library : StencilLibrary MAX_REGS} {l l' : Linked MAX_REGS}
  {c : Call MAX_REGS}

theorem LastCopied.next (h : LastCopied library l) (hn : l.next checks c = some l') :
    LastCopied library l' := by
  obtain ⟨wide, settled, code, relocs, -, hcopy, -, hstencils⟩ := Linked.copies_of_next hn
  obtain ⟨-, -, -, -, hnil⟩ := PatchBlock.settleNext_cases hcopy.settle
  have hpending := PatchBlock.patchEntries_pending hcopy.patch
  rw [show _ = [] from hnil, List.nil_append] at hpending
  constructor
  · exact hcopy.library.trans h.library
  · rw [hstencils, List.getLast?_concat]
    exact hcopy.code_length
  · rw [hstencils, List.getLast?_concat]
    exact hpending

/-- **In every run** the pending jumps belong to the stencil that was copied last. -/
theorem lastCopied_of_reachable (h : (callSystem checks library).Reachable l) :
    LastCopied library l := by
  refine System.Reachable.invariant ?_ ?_ h
  · rintro _ rfl
    exact ⟨rfl, rfl, rfl⟩
  · rintro l c l' - hl (hn | ⟨e, hcall, hsame⟩)
    · exact hl.next hn
    · rcases PatchBlock.call_cases hcall with ⟨-, -, ended, hb⟩ | ⟨hok, -⟩
      · constructor
        · rw [hb]
          exact hl.library
        · rw [hb, hsame]
          exact hl.length
        · rw [hb, hsame]
          exact hl.pending
      · cases hok

/-! ## Cuts -/

/-- The next `emit_one` pops `last` and cuts the code to `len`. -/
structure CutsTo (checks : Bool) (b : PatchBlock MAX_REGS) (last : DelayedRelocation) (len : Nat) :
    Prop where
  last : b.nextRelocations.getLast? = some last
  settles : ∃ settled, b.settleNext checks = some settled ∧ settled.code.length = len
  short : len < b.code.length

/-- What is cut off belongs to the popped jump: it lies inside the stencil that was copied last, the
jump's field ends with the code, and no other field of the stencil has a byte there. -/
structure RedundantCut (l : Linked MAX_REGS) (last : DelayedRelocation) (len : Nat) : Prop where
  inside : ∃ s, l.stencils.getLast? = some s ∧ s.start ≤ len ∧ l.block.code.length = s.stop ∧
    ∀ r ∈ s.entries.erase last.relocation, ∀ x, len ≤ x → x < l.block.code.length →
      ¬ (s.start + r.offset.toNat ≤ x ∧ x < s.fieldStop r)
  field : last.fieldEnd = l.block.code.length

/-- The guard of a cut: the code ends with the empty stencil after the jump was resolved, and the jump
stands behind the last delayed entry. -/
theorem CutsTo.guard {b : PatchBlock MAX_REGS} {last : DelayedRelocation} {len : Nat}
    (h : CutsTo checks b last len) : ∃ patched,
      applyWrites [jumpWrite b.code.length last] b.code = some patched ∧
        b.library.empty <:+ patched ∧ len = patched.length - b.library.empty.length ∧
          ((b.relocations.getLast?).map (·.location)).getD 0 < last.location := by
  obtain ⟨settled, hsettle, rfl⟩ := h.settles
  have hshort := h.short
  cases (PatchBlock.settleNext_cases hsettle).1 with
  | idle hn hc =>
      rw [hc] at hshort
      exact absurd hshort (Nat.lt_irrefl _)
  | jump init last' patched hn hp hcut hw =>
      have hlast := h.last
      rw [hn, List.getLast?_concat] at hlast
      obtain rfl := Option.some.inj hlast
      have hpatched := applyWrites_length hp
      rcases hcut with hcut | ⟨hsuffix, hcut, hbehind⟩
      · omega
      · exact ⟨patched, hp, hsuffix, hcut, hbehind⟩

/-- A cut removes the empty stencil. -/
theorem CutsTo.len_add {b : PatchBlock MAX_REGS} {last : DelayedRelocation} {len : Nat}
    (h : CutsTo checks b last len) : len + b.library.empty.length = b.code.length := by
  obtain ⟨patched, hp, hsuffix, hlen, -⟩ := h.guard
  have hpatched := applyWrites_length hp
  have hle := hsuffix.length_le
  omega

/-- The stencil and the field of a popped jump. -/
theorem LastCopied.popped (hl : LastCopied library l) {last : DelayedRelocation} {len : Nat}
    (hcut : CutsTo checks l.block last len) :
    ∃ s r, l.stencils.getLast? = some s ∧ s.lastNext = some r ∧ last = ⟨s.start, r, .next⟩ ∧
      l.block.code.length = s.stop := by
  have hlast := hcut.last
  have hlength := hl.length
  rw [hl.pending] at hlast
  cases hs : l.stencils.getLast? with
  | none =>
      rw [hs] at hlast
      cases hlast
  | some s =>
      rw [hs] at hlast hlength
      rw [Option.map_some, Option.getD_some, CopiedStencil.pending, List.getLast?_map] at hlast
      obtain ⟨r, hr, rfl⟩ := Option.map_eq_some_iff.1 hlast
      exact ⟨s, r, rfl, hr, rfl, hlength⟩

/-- A field without a byte among the last `n` ones of a stencil. -/
theorem noByte_iff {s : CopiedStencil} {r : Relocation} {n len : Nat} (hn : 0 < n)
    (hlen : len + n = s.stop) (hin : s.start ≤ len) :
    (∀ x, len ≤ x → x < s.stop → ¬ (s.start + r.offset.toNat ≤ x ∧ x < s.fieldStop r)) ↔
      r.fieldLen = 0 ∨ r.offset.toNat + r.fieldLen ≤ s.code.length - n ∨
        s.code.length ≤ r.offset.toNat := by
  unfold CopiedStencil.stop CopiedStencil.fieldStop at *
  constructor
  · intro hfree
    -- the first position that could be in both
    have hfirst := hfree (max len (s.start + r.offset.toNat)) (Nat.le_max_left _ _)
    omega
  · intro h x hx hstop
    omega

/-- One cut: it is redundant exactly when the last stencil ends in its jump. -/
theorem LastCopied.redundantCut_iff (hl : LastCopied library l) {last : DelayedRelocation} {len : Nat}
    (hcut : CutsTo checks l.block last len) :
    RedundantCut l last len ↔
      ∃ s, l.stencils.getLast? = some s ∧ s.EndsInNext library.empty.length := by
  obtain ⟨s, r, hs, hr, rfl, hstop⟩ := hl.popped hcut
  have hlen := hcut.len_add
  have hshort := hcut.short
  rw [hl.library, hstop] at hlen
  rw [hstop] at hshort
  have hpos : 0 < library.empty.length := by omega
  have hend : (⟨s.start, r, .next⟩ : DelayedRelocation).fieldEnd =
      s.start + (r.offset.toNat + r.fieldLen) := by
    rw [DelayedRelocation.fieldEnd, DelayedRelocation.location, Nat.add_assoc]
  have hcode : s.stop = s.start + s.code.length := rfl
  constructor
  -- a redundant cut keeps to the last stencil, whose end is the end of the code
  · rintro ⟨⟨s', hs', hin, -, hfree⟩, hfield⟩
    obtain rfl := Option.some.inj (hs.symm.trans hs')
    rw [hstop, hend] at hfield
    refine ⟨s, hs, ?_⟩
    intro r' hr'
    obtain rfl := Option.some.inj (hr.symm.trans hr')
    refine ⟨by omega, by omega, ?_⟩
    intro r' hr'
    apply (noByte_iff hpos hlen hin).1
    rw [← hstop]
    exact hfree r' hr'
  · rintro ⟨s', hs', hends⟩
    obtain rfl := Option.some.inj (hs.symm.trans hs')
    obtain ⟨hfield, hle, hothers⟩ := hends r hr
    have hin : s.start ≤ len := by omega
    refine ⟨⟨s, hs, hin, hstop, ?_⟩, by rw [hend, hstop, hcode, hfield]⟩
    intro r' hr'
    rw [hstop]
    exact (noByte_iff hpos hlen hin).2 (hothers r' hr')

/-! ## Protected ends -/

/-- A call with a stencil whose end is protected. -/
def PrunableCall (library : StencilLibrary MAX_REGS) (c : Call MAX_REGS) : Prop :=
  ∀ selected ∈ c.selected, ∀ sel ∈ selected, ∀ code ∈ sel.stencil.code library.code,
    ∀ relocs ∈ sel.stencil.relocations c.emission.stencil,
      EndProtected library sel.wide c.emission.jumps.toList code (validEntries relocs)

instance (library : StencilLibrary MAX_REGS) (c : Call MAX_REGS) :
    Decidable (PrunableCall library c) :=
  inferInstanceAs (Decidable (∀ selected ∈ c.selected, ∀ sel ∈ selected, _))

/-- What the block has of the stencil that was copied last: its bytes outside the fields, and behind all
delayed entries its own. Its end is protected. -/
structure LastProtected (library : StencilLibrary MAX_REGS) (l : Linked MAX_REGS) (s : CopiedStencil)
    (wide : Bool) : Prop where
  ending : EndProtected library wide s.jumps s.code s.entries
  plain : ∀ i v, s.code[i]? = some v →
    (∀ r ∈ s.entries, ¬ (r.offset.toNat ≤ i ∧ i < r.offset.toNat + r.fieldLen)) →
      l.block.code[s.start + i]? = some v
  filed : ∃ old, l.block.relocations.map PatchBlock.filedAt = old ++
    (s.entries.filter (isFiled library.rtSymbols wide s.jumps)).map fun r => (s.start, r)

/-- **In every run of such calls** the end of the stencil that was copied last is protected. -/
theorem lastProtected_of_reachable
    (h : ((callSystem checks library).guard fun _ c => PrunableCall library c).Reachable l) :
    ∀ s ∈ l.stencils.getLast?, ∃ wide, LastProtected library l s wide := by
  refine System.Reachable.invariant
    (I := fun l => ∀ s ∈ l.stencils.getLast?, ∃ wide, LastProtected library l s wide) ?_ ?_ h
  · rintro _ rfl s hs
    cases hs
  · rintro l c l' hreach hl ⟨hg, hn | ⟨e, hcall, hsame⟩⟩ s hs
    · obtain ⟨wide, settled, code, relocs, -, hcopy, -, hstencils⟩ := Linked.copies_of_next hn
      rw [hstencils, List.getLast?_concat] at hs
      obtain rfl := Option.some.inj hs
      have hlibrary := (lastCopied_of_reachable hreach.of_guard).library
      obtain ⟨-, hframe, -, -, -⟩ := PatchBlock.settleNext_cases hcopy.settle
      obtain ⟨sel, hsel, rfl, hcode, hrelocs⟩ := hcopy.source
      rw [hlibrary] at hcode
      refine ⟨sel.wide, hg _ hsel sel rfl code hcode relocs hrelocs, ?_, ?_⟩
      · intro i v hi hfree
        exact hcopy.plain_byte hi hfree
      · have hsettled : ({ settled with code := settled.code ++ code } : PatchBlock MAX_REGS).library =
            library := hframe.library.trans hlibrary
        exact ⟨_, PatchBlock.patchEntries_filed hsettled hcopy.patch⟩
    · rw [hsame] at hs
      obtain ⟨wide, hprotected, hplain, hfiled⟩ := hl s hs
      rcases PatchBlock.call_cases hcall with ⟨-, -, ended, hb⟩ | ⟨hok, -⟩
      · refine ⟨wide, hprotected, ?_, ?_⟩
        · rw [hb]
          exact hplain
        · rw [hb]
          exact hfiled
      · cases hok

/-- A cut of a protected end takes the stencil's last jump. -/
theorem LastProtected.endsInNext {s : CopiedStencil} {wide : Bool} (h : LastProtected library l s wide)
    (hl : LastCopied library l) (hs : l.stencils.getLast? = some s) {last : DelayedRelocation}
    {len : Nat} (hcut : CutsTo checks l.block last len) : s.EndsInNext library.empty.length := by
  obtain ⟨s', r, hs', hr, rfl, hstop⟩ := hl.popped hcut
  obtain rfl := Option.some.inj (hs.symm.trans hs')
  obtain ⟨patched, hp, hsuffix, -, hbehind⟩ := hcut.guard
  rw [hl.library] at hsuffix
  have hmem : r ∈ s.entries := (List.mem_filter.1 (List.mem_of_getLast? hr)).1
  -- no delayed entry of the stencil stands at or behind the popped jump
  have hfront : ∀ t ∈ (s.entries.filter (isFiled library.rtSymbols wide s.jumps)).getLast?,
      t.offset.toNat < r.offset.toNat := by
    intro t ht
    rw [Option.mem_def] at ht
    obtain ⟨old, hold⟩ := h.filed
    have hlast := congrArg List.getLast? hold
    rw [List.getLast?_append, List.getLast?_map, List.getLast?_map, ht, Option.map_some,
      Option.some_or] at hlast
    obtain ⟨d, hd, hplace⟩ := Option.map_eq_some_iff.1 hlast
    obtain ⟨hoffset, hrelocation⟩ := Prod.mk.inj hplace
    rw [hd, Option.map_some, Option.getD_some, DelayedRelocation.location,
      DelayedRelocation.location, hoffset, hrelocation] at hbehind
    exact Nat.lt_of_add_lt_add_left hbehind
  rcases h.ending with hnil | hown | hend | hshield
  · have hlen := hcut.len_add
    have hshort := hcut.short
    rw [hl.library, hnil, List.length_nil] at hlen
    omega
  · exact absurd hsuffix (hown.not_suffix hstop h.plain hmem rfl hp)
  · obtain ⟨t, ht, hjump, hfield, hle, hlow, hothers⟩ := hend
    obtain ⟨front, hentries⟩ := List.getLast?_eq_some_iff.1 ht
    rw [hentries, List.dropLast_concat] at hothers
    -- the last entry is the popped jump: another target would be delayed behind it
    obtain rfl : r = t := by
      cases hnext : isNext s.jumps t with
      | true =>
          have hlast := hr
          rw [CopiedStencil.lastNext, hentries, List.filter_append, List.filter_cons, hnext,
            if_pos rfl, List.filter_nil, List.getLast?_concat] at hlast
          exact (Option.some.inj hlast).symm
      | false =>
          have hlast := hfront t (by
            rw [hentries, List.filter_append, List.filter_cons, isFiled_of_isJump hjump hnext,
              if_pos rfl, List.filter_nil, List.getLast?_concat]
            exact rfl)
          by_contra hne
          rw [hentries, List.mem_append, List.mem_singleton] at hmem
          have hother := hothers r (hmem.resolve_right hne)
          omega
    intro r' hr'
    obtain rfl := Option.some.inj (hr.symm.trans hr')
    refine ⟨hfield, hle, ?_⟩
    intro r' hr'
    rw [hentries] at hr'
    have hother : r' ∈ front := by
      by_cases hin : r ∈ front
      · -- then the field would end in front of itself
        have hearly := hothers r hin
        have hlen := hcut.len_add
        have hshort := hcut.short
        rw [hl.library] at hlen
        omega
      · rw [List.erase_append_right _ hin, List.erase_cons_head, List.append_nil] at hr'
        exact hr'
    have hearly := hothers r' hother
    omega
  · obtain ⟨t, ht, hle⟩ := hshield r hr
    have hlt := hfront t ht
    omega

/-- **Pruning.** In every run of calls whose stencils have a protected end, whatever is cut off is the
last jump of the stencil that was copied last, and nothing else. -/
theorem cut_redundant (checks : Bool) (library : StencilLibrary MAX_REGS) (l : Linked MAX_REGS)
    (last : DelayedRelocation) (len : Nat)
    (h : ((callSystem checks library).guard fun _ c => PrunableCall library c).Reachable l)
    (hcut : CutsTo checks l.block last len) : RedundantCut l last len := by
  have hl := lastCopied_of_reachable h.of_guard
  obtain ⟨s, r, hs, -⟩ := hl.popped hcut
  obtain ⟨wide, hprotected⟩ := lastProtected_of_reachable h s hs
  exact (hl.redundantCut_iff hcut).2 ⟨s, hs, hprotected.endsInNext hl hs hcut⟩

end Runs

/-! ## Two jumps -/

section Sample

/-- A call behind which the code goes on. -/
theorem cut_redundant_call : ∃ l last len,
    ((callSystem true sampleLibrary).guard fun _ c => PrunableCall sampleLibrary c).Reachable l ∧
      CutsTo true l.block last len ∧ RedundantCut l last len := by
  obtain ⟨l, hl⟩ : ∃ l, (⟨.new sampleLibrary, []⟩ : Linked 1).next true
      (.emit callFamily #v[] #v[] #v[]) = some l := Option.isSome_iff_exists.1 (by decide +kernel)
  have hprunable : PrunableCall sampleLibrary (.emit callFamily #v[] #v[] #v[]) := by
    decide +kernel
  have hreach : ((callSystem true sampleLibrary).guard
      fun _ c => PrunableCall sampleLibrary c).Reachable l :=
    .step _ (.init rfl) ⟨hprunable, Or.inl hl⟩
  have hrun : ((⟨.new sampleLibrary, []⟩ : Linked 1).next true
      (.emit callFamily #v[] #v[] #v[])).map (fun l => (l.block.nextRelocations.getLast?,
        (l.block.settleNext true).map (·.code.length), l.block.code.length)) =
      some (some ⟨0, nextField, .next⟩, some 5, 10) := by
    decide +kernel
  rw [hl, Option.map_some, Option.some.injEq, Prod.mk.injEq, Prod.mk.injEq] at hrun
  obtain ⟨hlast, hsettle, hcode⟩ := hrun
  have hcut : CutsTo true l.block ⟨0, nextField, .next⟩ 5 :=
    ⟨hlast, Option.map_eq_some_iff.1 hsettle, by rw [hcode]; decide⟩
  exact ⟨l, _, 5, hreach, hcut, cut_redundant true sampleLibrary l _ 5 hreach hcut⟩

/-- An absolute 32-bit field at offset 6 for `Hole(0)`. -/
def secondField : Relocation := ⟨0x0000000020010006⟩

/-- Two jumps: the first to the following stencil, the second with a hole as its displacement. -/
def twoJumpsLibrary : StencilLibrary 1 where
  code := [0xE9, 0, 0, 0, 0, 0xE9, 0, 0, 0, 0]
  empty := [0xE9, 0, 0, 0, 0]
  longJump := ⟨[.new], [⟨0, 5, 0⟩]⟩
  rtSymbols := []

def twoJumps : StencilFamily 0 0 1 1 1 := ⟨[jumpField, secondField, .new], [⟨0, 10, 0⟩, ⟨0, 10, 0⟩]⟩

/-- With the hole value 0 the second jump looks like the empty one and is cut off. -/
theorem not_cut_redundant : ¬ ∀ (l : Linked 1) (last : DelayedRelocation) (len : Nat),
    (callSystem true twoJumpsLibrary).Reachable l → CutsTo true l.block last len →
      RedundantCut l last len := by
  intro hall
  obtain ⟨l, hl⟩ : ∃ l, (⟨.new twoJumpsLibrary, []⟩ : Linked 1).next true
      (.emit twoJumps #v[] #v[] #v[0]) = some l := Option.isSome_iff_exists.1 (by decide +kernel)
  have hrun : ((⟨.new twoJumpsLibrary, []⟩ : Linked 1).next true
      (.emit twoJumps #v[] #v[] #v[0])).map (fun l => (l.block.nextRelocations.getLast?,
        (l.block.settleNext true).map (·.code.length), l.block.code.length)) =
      some (some ⟨0, jumpField, .next⟩, some 5, 10) := by
    decide +kernel
  rw [hl, Option.map_some, Option.some.injEq, Prod.mk.injEq, Prod.mk.injEq] at hrun
  obtain ⟨hlast, hsettle, hcode⟩ := hrun
  have hcut : CutsTo true l.block ⟨0, jumpField, .next⟩ 5 :=
    ⟨hlast, Option.map_eq_some_iff.1 hsettle, by rw [hcode]; decide⟩
  have hfield := (hall l _ 5 (.step _ (.init rfl) (Or.inl hl)) hcut).field
  rw [hcode] at hfield
  revert hfield
  decide

end Sample

end Patchouly.Patch
